import RDownloader.Events.EventBus
import RDownloader.Lib.Machine

/-!
# Following the bus is exact

The buffer holds the newest of the events sent, each under the number of events sent before it
(`EventBus.Records`). A follower that has been told of the events up to a position holds those from
there on to the one its receiver hands over next (`Follower.Holds`), whatever lags in between.
-/

namespace RDownloader

/-- The last entry that meets the predicate. -/
theorem rposition_eq_some {p : α → Bool} {l : List α} {position : Nat}
    (h : rposition p l = some position) :
    ∃ hlt : position < l.length, p l[position] ∧
      ∀ later (hlater : later < l.length), position < later → ¬p l[later] := by
  obtain ⟨back, hback, rfl⟩ := Option.map_eq_some_iff.mp h
  obtain ⟨hlt, hmeets, hnone⟩ := List.findIdx?_eq_some_iff_getElem.mp hback
  rw [List.length_reverse] at hlt
  rw [List.getElem_reverse] at hmeets
  refine ⟨by omega, hmeets, fun later hlater hafter hp => ?_⟩
  have hearlier := hnone (l.length - 1 - later) (by omega)
  have hindex : l.length - 1 - (l.length - 1 - later) = later := by omega
  simp only [List.getElem_reverse, hindex] at hearlier
  exact hearlier hp

theorem rposition_isSome {p : α → Bool} {l : List α} {a : α} (hmem : a ∈ l) (hp : p a) :
    rposition p l ≠ none := by
  intro h
  have hnone := List.findIdx?_eq_none_iff.mp (Option.map_eq_none_iff.mp h) a (List.mem_reverse.mpr hmem)
  rw [hnone] at hp
  cases hp

namespace EventBus

variable {bus : EventBus} {sent : List EventEnvelope} {event : EventEnvelope}

/-- How many events have left the buffer. -/
def left (bus : EventBus) : Nat := bus.nextSeq - bus.buffer.length

/-- The sequence numbers go on from one. -/
def Numbered : Nat → List Buffered → Prop
  | _, [] => True
  | seq, buffered :: rest => buffered.seq = seq ∧ Numbered (seq + 1) rest

theorem Numbered.append {buffer more : List Buffered} {seq : Nat} (h : Numbered seq buffer)
    (hmore : Numbered (seq + buffer.length) more) : Numbered seq (buffer ++ more) := by
  induction buffer generalizing seq with
  | nil => exact hmore
  | cons buffered rest ih =>
    refine ⟨h.1, ih h.2 ?_⟩
    rwa [Nat.add_assoc, Nat.add_comm 1]

theorem Numbered.drop {buffer : List Buffered} {seq : Nat} (h : Numbered seq buffer) (n : Nat) :
    Numbered (seq + n) (buffer.drop n) := by
  induction buffer generalizing seq n with
  | nil =>
    rw [List.drop_nil]
    trivial
  | cons buffered rest ih =>
    cases n with
    | zero => exact h
    | succ n =>
      rw [Nat.add_comm n, ← Nat.add_assoc]
      exact Nat.add_comm n 1 ▸ ih h.2 n

/-- Those from a number on are what is left without as many as come before it. -/
theorem Numbered.filter {buffer : List Buffered} {seq : Nat} (h : Numbered seq buffer)
    (first : Nat) : buffer.filter (first ≤ ·.seq) = buffer.drop (first - seq) := by
  induction buffer generalizing seq with
  | nil => exact List.drop_nil.symm
  | cons buffered rest ih =>
    obtain ⟨rfl, hrest⟩ := h
    by_cases hle : first ≤ buffered.seq
    · rw [List.filter_cons_of_pos (by simpa using hle), ih hrest, Nat.sub_eq_zero_of_le hle,
        Nat.sub_eq_zero_of_le (Nat.le_succ_of_le hle)]
      rfl
    · obtain ⟨n, rfl⟩ := Nat.exists_eq_add_of_lt (Nat.lt_of_not_le hle)
      rw [List.filter_cons_of_neg (by simpa using hle), ih hrest, Nat.add_assoc,
        Nat.add_sub_cancel_left, List.drop_succ_cons, Nat.add_comm n, ← Nat.add_assoc,
        Nat.add_sub_cancel_left]

/-- The bus holds the newest of the events sent. -/
structure Records (bus : EventBus) (sent : List EventEnvelope) : Prop where
  live : bus.live.Keeps sent
  capacity_eq : bus.live.capacity = liveCapacity
  next_eq : bus.nextSeq = sent.length
  events_eq : bus.buffer.map (·.event) = sent.drop bus.left
  numbered : Numbered bus.left bus.buffer

theorem evict_eq_drop (bus : EventBus) (buffer : List Buffered) (bytes : Nat) :
    ∃ evicted, (bus.evict buffer bytes).1 = buffer.drop evicted ∧ evicted ≤ buffer.length := by
  induction buffer generalizing bytes with
  | nil => exact ⟨0, rfl, Nat.le_refl 0⟩
  | cons buffered rest ih =>
    rw [evict]
    split
    · obtain ⟨evicted, heq, hle⟩ := ih (bytes - buffered.bytes)
      exact ⟨evicted + 1, heq, Nat.succ_le_succ hle⟩
    · exact ⟨0, rfl, Nat.zero_le _⟩

namespace Records

theorem length_buffer (h : bus.Records sent) : bus.buffer.length = sent.length - bus.left := by
  have hlength := congrArg List.length h.events_eq
  rwa [List.length_map, List.length_drop] at hlength

theorem left_le (h : bus.Records sent) : bus.left ≤ sent.length := by
  rw [← h.next_eq]
  exact Nat.sub_le ..

theorem bounded (events bytes : Nat) : (EventBus.bounded events bytes).Records [] :=
  ⟨⟨rfl, rfl⟩, rfl, rfl, rfl, trivial⟩

/-- A send adds one event, and some of the oldest leave the buffer. -/
theorem send (h : bus.Records sent) (event : EventEnvelope) :
    (bus.send event).Records (sent ++ [event]) ∧ bus.left ≤ (bus.send event).left := by
  let added : Buffered := ⟨event, event.payload.length, bus.nextSeq⟩
  obtain ⟨evicted, hevict, hle⟩ :=
    bus.evict_eq_drop (bus.buffer ++ [added]) (saturatingAdd bus.bytes event.payload.length)
  have hbuffer : (bus.send event).buffer = (bus.buffer ++ [added]).drop evicted := hevict
  rw [List.length_append, List.length_singleton] at hle
  have hlength := h.length_buffer
  have hleft := h.left_le
  have hnext := h.next_eq
  have hleftSend : (bus.send event).left = bus.left + evicted := by
    rw [left, hbuffer, List.length_drop, List.length_append, List.length_singleton]
    change bus.nextSeq + 1 - _ = _
    omega
  have hadded : added.seq = bus.left + bus.buffer.length := by
    change bus.nextSeq = _
    omega
  refine ⟨⟨h.live.send event, h.capacity_eq, ?_, ?_, ?_⟩, hleftSend ▸ Nat.le_add_right ..⟩
  · change bus.nextSeq + 1 = _
    rw [hnext, List.length_append]
    rfl
  · rw [hbuffer, hleftSend, List.map_drop, List.map_append, h.events_eq,
      ← List.drop_append_of_le_length hleft, List.drop_drop]
    rfl
  · rw [hbuffer, hleftSend]
    have hone : Numbered (bus.left + bus.buffer.length) [added] := ⟨hadded, trivial⟩
    exact (h.numbered.append hone).drop evicted

/-- What a follower takes: everything it missed that the buffer still holds. -/
theorem since (h : bus.Records sent) (first : Nat) :
    (bus.since first).events = sent.drop (max first bus.left) ∧
      (bus.since first).lost = bus.left - first ∧
      (bus.since first).live = sent.length ∧ (bus.since first).next = sent.length := by
  refine ⟨?_, ?_, h.live.tail_eq, h.next_eq⟩
  · rw [EventBus.since]
    dsimp only
    rw [h.numbered.filter, List.map_drop, h.events_eq, List.drop_drop]
    congr 1
    omega
  · have hnumbered := h.numbered
    rw [EventBus.since]
    dsimp only
    cases hbuffer : bus.buffer with
    | nil => rw [left, hbuffer]; rfl
    | cons oldest rest =>
      rw [hbuffer] at hnumbered
      exact congrArg (· - first) hnumbered.1

/-- A resume after an event in the buffer replays what was sent after it. -/
theorem resume (h : bus.Records sent) {after : EventId} {replay : List EventEnvelope} {live : Nat}
    (hresume : bus.resume after = (.events replay, live)) :
    live = sent.length ∧ ∃ first, ∃ hlt : first < sent.length, bus.left ≤ first ∧
      sent[first].id = after ∧
      (∀ later (hlater : later < sent.length), first < later → sent[later].id ≠ after) ∧
      replay = sent.drop (first + 1) := by
  unfold EventBus.resume at hresume
  split at hresume
  case h_2 => cases hresume
  case h_1 position hposition =>
    obtain ⟨hreplay, rfl⟩ := Prod.mk.inj hresume
    obtain rfl := Replay.events.inj hreplay
    obtain ⟨hlt, hid, hlast⟩ := rposition_eq_some hposition
    have hlength := h.length_buffer
    have hevent (i : Nat) (hi : i < bus.buffer.length) :
        (bus.buffer[i]).event = sent[bus.left + i] := by
      have hget := List.getElem_of_eq h.events_eq (List.length_map _ ▸ hi)
      rwa [List.getElem_map, List.getElem_drop] at hget
    refine ⟨h.live.tail_eq, bus.left + position, by omega, Nat.le_add_right .., ?_, ?_, ?_⟩
    · rw [← hevent position hlt]
      exact of_decide_eq_true hid
    · intro later hlater hafter hsame
      obtain ⟨i, rfl⟩ := Nat.exists_eq_add_of_le (Nat.le_of_lt (Nat.lt_of_add_right_lt hafter))
      have hi : i < bus.buffer.length := by omega
      refine hlast i hi (Nat.lt_of_add_lt_add_left hafter) (decide_eq_true ?_)
      rw [hevent i hi, hsame]
    · rw [List.map_drop, h.events_eq, List.drop_drop, Nat.add_assoc]

/-- An event that cannot be resumed after has left the buffer. -/
theorem resume_expired (h : bus.Records sent) {after : EventId} {live : Nat}
    (hresume : bus.resume after = (.expired, live)) {i : Nat} (hitem : sent[i]? = some event)
    (hid : event.id = after) : i < bus.left := by
  refine Nat.lt_of_not_le fun hle => ?_
  have hheld : event ∈ bus.buffer.map (·.event) := by
    obtain ⟨n, rfl⟩ := Nat.exists_eq_add_of_le hle
    rw [h.events_eq]
    exact List.mem_of_getElem? (List.getElem?_drop.trans hitem)
  obtain ⟨buffered, hmem, rfl⟩ := List.mem_map.mp hheld
  unfold EventBus.resume at hresume
  split at hresume
  · cases hresume
  next hnone => exact rposition_isSome hmem (decide_eq_true hid) hnone

end Records

end EventBus

namespace Follower

variable {bus : EventBus} {sent : List EventEnvelope} {follower : Follower} {position : Nat}

/-- A follower with nothing to replay asks its receiver. -/
theorem turn_eq_recv (hbehind : follower.behind = false) (hnil : follower.replayed = []) :
    follower.turn bus = match bus.live.recv follower.live with
      | (.got event, live) => ({ follower with live, next := follower.next + 1 }, some (.item event))
      | (.lagged _, live) => ({ follower with live, behind := true }, none)
      | (.empty, live) => ({ follower with live }, none) := by
  rw [turn, hbehind, if_neg Bool.false_ne_true, hnil]
  all_goals rfl

theorem recv_of_turn {turns : Nat} (h : (follower.turn bus).2 ≠ none) :
    (follower.recv bus (turns + 1)).2 ≠ none := by
  rw [recv]
  generalize follower.turn bus = pair at h ⊢
  obtain ⟨next, told⟩ := pair
  cases told with
  | none => exact absurd rfl h
  | some told => exact Option.some_ne_none told

theorem recv_succ {turns : Nat} (h : ((follower.turn bus).1.recv bus turns).2 ≠ none) :
    (follower.recv bus (turns + 1)).2 ≠ none := by
  rw [recv]
  generalize follower.turn bus = pair at h ⊢
  obtain ⟨next, told⟩ := pair
  cases told with
  | none => exact h
  | some told => exact Option.some_ne_none told

theorem turn_ne_none (hbehind : follower.behind = false) (hreplayed : follower.replayed ≠ []) :
    (follower.turn bus).2 ≠ none := by
  rw [turn, hbehind, if_neg Bool.false_ne_true]
  cases hcons : follower.replayed with
  | nil => exact absurd hcons hreplayed
  | cons event rest => exact Option.some_ne_none _

/-- What a follower that was told of the events up to a position has at hand. -/
structure Holds (follower : Follower) (sent : List EventEnvelope) (position : Nat) : Prop where
  position_le : position ≤ follower.next
  next_le : follower.next ≤ sent.length
  replayed_eq : follower.replayed = (sent.drop position).take (follower.next - position)
  live_eq : follower.behind = false → follower.live = follower.next
  behind_nil : follower.behind = true → follower.replayed = []

namespace Holds

theorem position_eq (h : follower.Holds sent position) (hnil : follower.replayed = []) :
    position = follower.next := by
  have hlength := congrArg List.length (h.replayed_eq.symm.trans hnil)
  rw [List.length_take, List.length_drop, List.length_nil] at hlength
  have hposition := h.position_le
  have hnext := h.next_le
  omega

theorem send (h : follower.Holds sent position) (event : EventEnvelope) :
    follower.Holds (sent ++ [event]) position := by
  have hnext := h.next_le
  have hposition := h.position_le
  refine { h with next_le := ?_, replayed_eq := ?_ }
  · rw [List.length_append]
    exact Nat.le_add_right_of_le hnext
  · rw [h.replayed_eq, List.drop_append_of_le_length (Nat.le_trans hposition hnext),
      List.take_append_of_le_length]
    rw [List.length_drop]
    omega

theorem follow (h : bus.Records sent) : bus.follow.Holds sent sent.length where
  position_le := Nat.le_of_eq h.next_eq.symm
  next_le := Nat.le_of_eq h.next_eq
  replayed_eq := by simp [EventBus.follow]
  live_eq _ := h.live.tail_eq.trans h.next_eq.symm
  behind_nil _ := rfl

variable {gone start : Nat} {told : List (Told EventEnvelope)}

/-- After a lag: what the buffer no longer holds is reported, and the rest of it is taken. -/
theorem turn_behind (h : follower.Holds sent position) (hbus : bus.Records sent)
    (hreading : Reading sent bus.left start told position) (hbehind : follower.behind = true) :
    ∃ position', (follower.turn bus).1.Holds sent position' ∧
      Reading sent bus.left start (told ++ (follower.turn bus).2.toList) position' := by
  obtain rfl := h.position_eq (h.behind_nil hbehind)
  obtain ⟨hevents, hlost, hlive, hnext⟩ := hbus.since follower.next
  have hleft := hbus.left_le
  have hfollower := h.next_le
  refine ⟨max follower.next bus.left, ?_, ?_⟩
  · rw [turn, if_pos hbehind]
    refine ⟨?_, Nat.le_of_eq hnext, ?_, fun _ => hlive.trans hnext.symm, fun h => nomatch h⟩
    · change _ ≤ (bus.since follower.next).next
      omega
    · dsimp only
      rw [hevents, hnext, List.take_of_length_le (Nat.le_of_eq List.length_drop)]
  · rw [turn, if_pos hbehind]
    dsimp only
    rw [hlost]
    split
    case isTrue hpos =>
      have hmax : max follower.next bus.left = follower.next + (bus.left - follower.next) := by omega
      rw [hmax]
      exact .lagged hreading hpos (by omega)
    case isFalse hpos =>
      rw [Nat.max_eq_left (Nat.le_of_sub_eq_zero (Nat.eq_zero_of_not_pos hpos))]
      exact (List.append_nil told).symm ▸ hreading

theorem turn_replayed (h : follower.Holds sent position) {event : EventEnvelope}
    {rest : List EventEnvelope} (hreplayed : follower.replayed = event :: rest) :
    sent[position]? = some event ∧
      { follower with replayed := rest }.Holds sent (position + 1) := by
  have htake := h.replayed_eq.symm.trans hreplayed
  have hnext := h.next_le
  have hlt : position < follower.next := by
    refine Nat.lt_of_le_of_ne h.position_le fun heq => ?_
    rw [heq, Nat.sub_self, List.take_zero] at htake
    cases htake
  have hlength : position < sent.length := Nat.lt_of_lt_of_le hlt hnext
  have hcount : follower.next - position = follower.next - (position + 1) + 1 := by omega
  rw [List.drop_eq_getElem_cons hlength, hcount, List.take_succ_cons] at htake
  obtain ⟨hevent, hrest⟩ := List.cons.inj htake
  refine ⟨List.getElem?_eq_some_iff.mpr ⟨hlength, hevent⟩,
    hlt, hnext, hrest.symm, h.live_eq, fun hbehind => ?_⟩
  cases hreplayed.symm.trans (h.behind_nil hbehind)

/-- A turn that asks the receiver. -/
theorem turn_live (h : follower.Holds sent position) (hbus : bus.Records sent)
    (hreading : Reading sent gone start told position) (hbehind : follower.behind = false)
    (hnil : follower.replayed = []) :
    (∃ position', (follower.turn bus).1.Holds sent position' ∧
      Reading sent gone start (told ++ (follower.turn bus).2.toList) position') ∧
    (follower.turn bus = (follower, none) → position = sent.length) := by
  obtain rfl := h.position_eq hnil
  have hlive := h.live_eq hbehind
  have hrecv := hbus.live.recv (hlive ▸ h.next_le)
  rw [turn_eq_recv hbehind hnil]
  generalize bus.live.recv follower.live = pair at hrecv ⊢
  obtain ⟨receipt, live⟩ := pair
  cases receipt with
  | got event =>
    obtain ⟨hitem, rfl⟩ := hrecv
    rw [hlive] at hitem
    obtain ⟨hlt, -⟩ := List.getElem?_eq_some_iff.mp hitem
    refine ⟨⟨follower.next + 1, ⟨Nat.le_refl _, hlt, ?_, fun _ => congrArg (· + 1) hlive, ?_⟩,
      .item hreading hitem⟩, fun h => nomatch congrArg Prod.snd h⟩
    · rw [Nat.sub_self, hnil, List.take_zero]
    · exact fun _ => hnil
  | lagged n =>
    refine ⟨⟨follower.next, ⟨Nat.le_refl _, h.next_le, ?_, fun h => (nomatch h), fun _ => hnil⟩,
      (List.append_nil told).symm ▸ hreading⟩, fun h => ?_⟩
    · rw [Nat.sub_self, hnil, List.take_zero]
    · have hsame : true = false := (congrArg (·.1.behind) h).trans hbehind
      cases hsame
  | empty =>
    obtain ⟨rfl, htail⟩ := hrecv
    exact ⟨⟨follower.next, h, (List.append_nil told).symm ▸ hreading⟩, fun _ => hlive ▸ htail⟩

/-- A turn that returns something tells of the events from the position on, and one that returns
nothing and changes nothing has told of them all. -/
theorem turn (h : follower.Holds sent position) (hbus : bus.Records sent)
    (hreading : Reading sent bus.left start told position) :
    (∃ position', (follower.turn bus).1.Holds sent position' ∧
      Reading sent bus.left start (told ++ (follower.turn bus).2.toList) position') ∧
    (follower.turn bus = (follower, none) → position = sent.length) := by
  cases hbehind : follower.behind with
  | true =>
    refine ⟨h.turn_behind hbus hreading hbehind, fun hturn => ?_⟩
    rw [Follower.turn, if_pos hbehind] at hturn
    have hsame : false = true := (congrArg (·.1.behind) hturn).trans hbehind
    cases hsame
  | false =>
    cases hreplayed : follower.replayed with
    | nil => exact h.turn_live hbus hreading hbehind hreplayed
    | cons event rest =>
      obtain ⟨hitem, hholds⟩ := h.turn_replayed hreplayed
      have hturn : follower.turn bus = ({ follower with replayed := rest }, some (.item event)) := by
        rw [Follower.turn, hbehind, if_neg Bool.false_ne_true, hreplayed]
      rw [hturn]
      exact ⟨⟨position + 1, hholds, .item hreading hitem⟩, fun h => nomatch congrArg Prod.snd h⟩

/-- A follower that has been told it lagged returns in this turn or the next. -/
theorem recv_behind (h : follower.Holds sent position) (hbus : bus.Records sent)
    (hbehind : follower.behind = true) (hmissing : position < sent.length) (turns : Nat) :
    (follower.recv bus (turns + 2)).2 ≠ none := by
  obtain rfl := h.position_eq (h.behind_nil hbehind)
  obtain ⟨hevents, hlost, -, -⟩ := hbus.since follower.next
  by_cases hpos : 0 < (bus.since follower.next).lost
  · refine recv_of_turn ?_
    rw [Follower.turn, if_pos hbehind]
    dsimp only
    rw [if_pos hpos]
    exact Option.some_ne_none _
  · refine recv_succ (recv_of_turn ?_)
    have hturn : (follower.turn bus).1.behind = false ∧
        (follower.turn bus).1.replayed = (bus.since follower.next).events := by
      rw [Follower.turn, if_pos hbehind]
      exact ⟨rfl, rfl⟩
    refine turn_ne_none hturn.1 ?_
    rw [hturn.2, hevents, Ne, List.drop_eq_nil_iff, Nat.max_eq_left (by omega)]
    omega

/-- As long as there is something it has not been told of, `recv` returns. -/
theorem recv (h : follower.Holds sent position) (hbus : bus.Records sent)
    (hmissing : position < sent.length) : (follower.recv bus 3).2 ≠ none := by
  cases hbehind : follower.behind with
  | true => exact h.recv_behind hbus hbehind hmissing 1
  | false =>
    by_cases hnil : follower.replayed = []
    · obtain rfl := h.position_eq hnil
      have hlive := h.live_eq hbehind
      have hrecv := hbus.live.recv (hlive ▸ h.next_le)
      have hturn := @turn_eq_recv bus follower hbehind hnil
      generalize bus.live.recv follower.live = pair at hrecv hturn
      obtain ⟨receipt, live⟩ := pair
      cases receipt with
      | got event => exact recv_of_turn (hturn ▸ Option.some_ne_none _)
      | lagged n =>
        refine recv_succ (hturn ▸ ?_)
        have hbehindHolds : { follower with live, behind := true }.Holds sent follower.next :=
          ⟨Nat.le_refl _, h.next_le, by rw [Nat.sub_self, hnil, List.take_zero],
            fun h => (nomatch h), fun _ => hnil⟩
        exact hbehindHolds.recv_behind hbus rfl hmissing 0
      | empty => exact absurd (hlive ▸ hrecv.2) (Nat.ne_of_lt hmissing)
    · exact recv_of_turn (turn_ne_none hbehind hnil)

end Holds

end Follower

/-- A follower, and what it has been told since it was created after so many events. -/
structure Following where
  follower : Follower
  created : Nat
  told : List (Told EventEnvelope) := []

/-- A receiver from a resume, and what it has been told, the replay first. -/
structure Resumed where
  after : EventId
  /-- How many events were sent before the resume. -/
  resumed : Nat
  live : Nat
  told : List (Told EventEnvelope)

/-- The bus, every event sent on it, and those who listen. -/
structure EventWorld where
  bus : EventBus
  sent : List EventEnvelope := []
  followers : List Following := []
  resumes : List Resumed := []

inductive BusEvent
  | send (event : EventEnvelope)
  | follow
  | turn (i : Nat)
  | resume (after : EventId)
  | receive (i : Nat)

def Following.turn (following : Following) (bus : EventBus) : Following :=
  { following with
    follower := (following.follower.turn bus).1
    told := following.told ++ (following.follower.turn bus).2.toList }

def Resumed.receive (resumed : Resumed) (bus : EventBus) : Resumed :=
  { resumed with
    live := (bus.live.recv resumed.live).2
    told := resumed.told ++ (bus.live.recv resumed.live).1.told }

namespace EventWorld

def step (world : EventWorld) : BusEvent → Option EventWorld
  | .send event => some { world with bus := world.bus.send event, sent := world.sent ++ [event] }
  | .follow => some { world with
      followers := world.followers ++ [⟨world.bus.follow, world.sent.length, []⟩] }
  | .turn i => world.followers[i]?.map fun following =>
      { world with followers := world.followers.set i (following.turn world.bus) }
  | .resume after =>
    match world.bus.resume after with
    | (.events replay, live) => some { world with
        resumes := world.resumes ++ [⟨after, world.sent.length, live, replay.map .item⟩] }
    | (.expired, _) => some world
  | .receive i => world.resumes[i]?.map fun resumed =>
      { world with resumes := world.resumes.set i (resumed.receive world.bus) }

def machine (maxEvents maxBytes : Nat) : Machine EventWorld BusEvent where
  initial world := world = { bus := .bounded maxEvents maxBytes }
  step := step

variable {world next : EventWorld} {following : Following} {resumed : Resumed}

/-- What a follower was told stands for the events from its creation up to a position. -/
def Follows (world : EventWorld) (following : Following) : Prop :=
  ∃ position, following.follower.Holds world.sent position ∧
    Reading world.sent world.bus.left following.created following.told position

/-- What a resume was told stands for the events after the one it names. -/
def Resumes (world : EventWorld) (resumed : Resumed) : Prop :=
  resumed.live ≤ world.sent.length ∧ resumed.resumed ≤ world.sent.length ∧
    ∃ first event, world.sent[first]? = some event ∧ event.id = resumed.after ∧
    (∀ later event', first < later → later < resumed.resumed → world.sent[later]? = some event' →
      event'.id ≠ resumed.after) ∧
    Reading world.sent (world.sent.length - liveCapacity) (first + 1) resumed.told resumed.live

structure Exact (world : EventWorld) : Prop where
  bus : world.bus.Records world.sent
  followers : ∀ following ∈ world.followers, world.Follows following
  resumes : ∀ resumed ∈ world.resumes, world.Resumes resumed

theorem Follows.send (h : world.Follows following) (hbus : world.bus.Records world.sent)
    (event : EventEnvelope) :
    Follows { world with bus := world.bus.send event, sent := world.sent ++ [event] } following := by
  obtain ⟨position, hholds, hreading⟩ := h
  exact ⟨position, hholds.send event,
    hreading.mono (List.prefix_append ..) (hbus.send event).2⟩

theorem Follows.turn (h : world.Follows following) (hbus : world.bus.Records world.sent) :
    world.Follows (following.turn world.bus) := by
  obtain ⟨position, hholds, hreading⟩ := h
  exact (hholds.turn hbus hreading).1

theorem Resumes.send (h : world.Resumes resumed) (event : EventEnvelope) :
    Resumes { world with bus := world.bus.send event, sent := world.sent ++ [event] } resumed := by
  obtain ⟨hlive, hresumed, first, named, hnamed, hid, hlast, hreading⟩ := h
  obtain ⟨hfirst, -⟩ := List.getElem?_eq_some_iff.mp hnamed
  refine ⟨?_, ?_, first, named, ?_, hid, fun later event' hafter hlater hevent => ?_, ?_⟩
  · exact Nat.le_trans hlive (List.prefix_append ..).length_le
  · exact Nat.le_trans hresumed (List.prefix_append ..).length_le
  · exact (List.getElem?_append_left hfirst).trans hnamed
  · rw [List.getElem?_append_left (Nat.lt_of_lt_of_le hlater hresumed)] at hevent
    exact hlast later event' hafter hlater hevent
  · exact hreading.mono (List.prefix_append ..)
      (Nat.sub_le_sub_right (List.prefix_append ..).length_le _)

theorem Resumes.receive (h : world.Resumes resumed) (hbus : world.bus.Records world.sent) :
    world.Resumes (resumed.receive world.bus) := by
  obtain ⟨hlive, hresumed, first, named, hnamed, hid, hlast, hreading⟩ := h
  rw [← hbus.capacity_eq] at hreading
  obtain ⟨hnext, hle⟩ := hbus.live.reading hreading hlive
  rw [hbus.capacity_eq] at hnext
  exact ⟨hle, hresumed, first, named, hnamed, hid, hlast, hnext⟩

theorem Resumes.of_resume (hbus : world.bus.Records world.sent) {after : EventId}
    {replay : List EventEnvelope} {live : Nat}
    (hresume : world.bus.resume after = (.events replay, live)) :
    world.Resumes ⟨after, world.sent.length, live, replay.map .item⟩ := by
  obtain ⟨rfl, first, hlt, -, hid, hlast, rfl⟩ := hbus.resume hresume
  refine ⟨Nat.le_refl _, Nat.le_refl _, first, _, List.getElem?_eq_getElem hlt, hid, ?_, ?_⟩
  · intro later event' hafter hlater hevent
    obtain ⟨-, rfl⟩ := List.getElem?_eq_some_iff.mp hevent
    exact hlast later hlater hafter
  · have hitems := @Reading.items _ world.sent (world.sent.length - liveCapacity) (first + 1)
      (world.sent.length - (first + 1)) (by omega)
    rwa [Nat.add_sub_of_le hlt, List.take_of_length_le (Nat.le_of_eq List.length_drop)] at hitems

theorem Exact.step (h : world.Exact) {event : BusEvent} (hstep : world.step event = some next) :
    next.Exact := by
  cases event with
  | send event =>
    obtain rfl := Option.some.inj hstep
    exact ⟨(h.bus.send event).1, fun following hmem => (h.followers following hmem).send h.bus event,
      fun resumed hmem => (h.resumes resumed hmem).send event⟩
  | follow =>
    obtain rfl := Option.some.inj hstep
    refine ⟨h.bus, ?_, h.resumes⟩
    intro following hmem
    rcases List.mem_append.mp hmem with hmem | hmem
    · exact h.followers following hmem
    · obtain rfl := List.mem_singleton.mp hmem
      exact ⟨world.sent.length, .follow h.bus, .start⟩
  | turn i =>
    obtain ⟨following, hfollowing, rfl⟩ := Option.map_eq_some_iff.mp hstep
    refine ⟨h.bus, ?_, h.resumes⟩
    intro other hmem
    rcases List.mem_or_eq_of_mem_set hmem with hmem | rfl
    · exact h.followers other hmem
    · exact (h.followers following (List.mem_of_getElem? hfollowing)).turn h.bus
  | resume after =>
    simp only [EventWorld.step] at hstep
    split at hstep
    case h_1 replay live hresume =>
      obtain rfl := Option.some.inj hstep
      refine ⟨h.bus, h.followers, ?_⟩
      intro resumed hmem
      rcases List.mem_append.mp hmem with hmem | hmem
      · exact h.resumes resumed hmem
      · obtain rfl := List.mem_singleton.mp hmem
        exact .of_resume h.bus hresume
    case h_2 =>
      obtain rfl := Option.some.inj hstep
      exact h
  | receive i =>
    obtain ⟨resumed, hresumed, rfl⟩ := Option.map_eq_some_iff.mp hstep
    refine ⟨h.bus, h.followers, ?_⟩
    intro other hmem
    rcases List.mem_or_eq_of_mem_set hmem with hmem | rfl
    · exact h.resumes other hmem
    · exact (h.resumes resumed (List.mem_of_getElem? hresumed)).receive h.bus

theorem Exact.of_reaches {maxEvents maxBytes : Nat}
    (h : (machine maxEvents maxBytes).Reaches Machine.anything world) : world.Exact := by
  refine h.invariant Exact ?_ fun _ _ _ h _ hstep => h.step hstep
  rintro _ rfl
  exact ⟨.bounded .., List.forall_mem_nil _, List.forall_mem_nil _⟩

/-- What a follower was told stands for the events sent after it was created, in order and each
once, a lag for events that have left the buffer; and `recv` returns until it was told of all. After
an event still in the buffer, the replay and its receiver stand for the events after that one. -/
theorem following_exact {maxEvents maxBytes : Nat}
    (hreach : (machine maxEvents maxBytes).Reaches Machine.anything world) :
    (∀ following ∈ world.followers, ∃ position,
      Reading world.sent world.bus.left following.created following.told position ∧
      (position < world.sent.length → (following.follower.recv world.bus 3).2 ≠ none)) ∧
    (∀ resumed ∈ world.resumes, ∃ first event, world.sent[first]? = some event ∧
      event.id = resumed.after ∧
      (∀ later event', first < later → later < resumed.resumed → world.sent[later]? = some event' →
        event'.id ≠ resumed.after) ∧
      Reading world.sent (world.sent.length - liveCapacity) (first + 1) resumed.told resumed.live ∧
      ((∀ n, .lagged n ∉ resumed.told) →
        resumed.told = ((world.sent.drop (first + 1)).take (resumed.live - (first + 1))).map .item)) ∧
    ∀ buffered ∈ world.bus.buffer, ∃ replay live,
      world.bus.resume buffered.event.id = (.events replay, live) := by
  have h := Exact.of_reaches hreach
  refine ⟨fun following hmem => ?_, fun resumed hmem => ?_, fun buffered hmem => ?_⟩
  · obtain ⟨position, hholds, hreading⟩ := h.followers following hmem
    exact ⟨position, hreading, hholds.recv h.bus⟩
  · obtain ⟨-, -, first, event, hevent, hid, hlast, hreading⟩ := h.resumes resumed hmem
    exact ⟨first, event, hevent, hid, hlast, hreading, hreading.eq_of_not_lagged⟩
  · unfold EventBus.resume
    cases hposition : rposition (·.event.id = buffered.event.id) world.bus.buffer with
    | none => exact absurd hposition (rposition_isSome hmem (decide_eq_true rfl))
    | some position => exact ⟨_, _, rfl⟩

/-- Three events on a bus that keeps two: the follower hears the first from its receiver, and a
resume after the second gets the third. -/
theorem following_exact_three :
    ∃ world : EventWorld,
      (machine 2 100).run { bus := .bounded 2 100 } [.follow, .send ⟨1, []⟩, .send ⟨2, []⟩,
        .send ⟨3, []⟩, .turn 0, .resume 2] = some world ∧
      (∃ following ∈ world.followers, following.told = [.item ⟨1, []⟩]) ∧
      (∀ following ∈ world.followers, ∃ position,
        Reading world.sent world.bus.left following.created following.told position ∧
        (position < world.sent.length → (following.follower.recv world.bus 3).2 ≠ none)) ∧
      ∀ buffered ∈ world.bus.buffer, ∃ replay live,
        world.bus.resume buffered.event.id = (.events replay, live) :=
  have hexact {world : EventWorld} (hrun : (machine 2 100).run { bus := .bounded 2 100 } [.follow,
      .send ⟨1, []⟩, .send ⟨2, []⟩, .send ⟨3, []⟩, .turn 0, .resume 2] = some world) :=
    following_exact (.run (.initial rfl) hrun)
  ⟨_, rfl, ⟨_, List.mem_singleton_self _, rfl⟩, (hexact rfl).1, (hexact rfl).2.2⟩

end EventWorld

end RDownloader
