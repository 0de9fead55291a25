import RDownloader.Automation.Queue

/-!
# What the engine hears

The loop goes through the events of the process in their order. A lag makes it pass some over when
it cannot resume: before its first event, or when the last one it took has left the buffer.
-/

namespace RDownloader

namespace Automation

open EventBus

/-- What the receiver and the rest of a replay hand over next. -/
def Engine.reader (engine : Engine) : Follower := ⟨engine.live, engine.live, engine.replayed, false⟩

structure Hears (engine : Engine) : Prop where
  records : engine.bus.Records engine.sent
  holds : engine.reader.Holds engine.sent engine.position
  unique : (engine.sent.map (·.id)).Nodup
  known : ∀ event ∈ engine.sent, event.id ∈ engine.known
  /-- The event taken last is the one before the position, or has left the buffer. -/
  last : ∀ id, engine.last = some id → ∃ i event, engine.sent[i]? = some event ∧ event.id = id ∧
    (i + 1 = engine.position ∨ i < engine.bus.left)
  heard : ∀ i event, engine.subscribed ≤ i → i < engine.position → engine.sent[i]? = some event →
    (∃ runs, (event, runs) ∈ engine.taken) ∨ ∃ lost, (event, lost) ∈ engine.skipped
  down : engine.phase = .down → engine.last = none ∧ engine.replayed = [] ∧ engine.pending = [] ∧
    engine.taken = [] ∧ engine.skipped = []

namespace Hears

variable {mayTrigger : EventEnvelope → Bool} {engine after : Engine}

theorem position_le (h : Hears engine) : engine.position ≤ engine.sent.length :=
  Nat.le_trans h.holds.position_le h.holds.next_le

/-- Events have ids of their own. -/
theorem sent_inj (h : Hears engine) {i j : Nat} {event other : EventEnvelope}
    (hi : engine.sent[i]? = some event) (hj : engine.sent[j]? = some other)
    (hsame : event.id = other.id) : i = j := by
  obtain ⟨hlt, -⟩ := List.getElem?_eq_some_iff.mp hi
  refine (List.getElem?_inj ((List.length_map _).symm ▸ hlt) h.unique).mp ?_
  rw [List.getElem?_map, List.getElem?_map, hi, hj]
  exact congrArg some hsame

theorem send (h : Hears engine) (event : EventEnvelope) (hnew : event.id ∉ engine.known) :
    Hears { engine with
      bus := engine.bus.send event
      sent := engine.sent ++ [event]
      known := engine.known ++ [event.id] } where
  records := (h.records.send event).1
  holds := h.holds.send event
  unique := by
    rw [List.map_append, List.nodup_append]
    refine ⟨h.unique, List.nodup_singleton _, fun id hid id' hid' heq => ?_⟩
    obtain ⟨other, hmem, rfl⟩ := List.mem_map.mp hid
    have hsame : other.id = event.id := heq.trans (List.mem_singleton.mp hid')
    exact hnew (hsame ▸ h.known other hmem)
  known other hmem := by
    rcases List.mem_append.mp hmem with hmem | hmem
    · exact List.mem_append_left _ (h.known other hmem)
    · rw [List.mem_singleton.mp hmem]
      exact List.mem_append_right _ (List.mem_singleton_self _)
  last id hid := by
    obtain ⟨i, other, hitem, hother, hwhere⟩ := h.last id hid
    obtain ⟨hlt, -⟩ := List.getElem?_eq_some_iff.mp hitem
    exact ⟨i, other, (List.getElem?_append_left hlt).trans hitem, hother,
      hwhere.imp_right fun hleft => Nat.lt_of_lt_of_le hleft (h.records.send event).2⟩
  heard i other hfrom hto hitem := by
    rw [List.getElem?_append_left (Nat.lt_of_lt_of_le hto h.position_le)] at hitem
    exact h.heard i other hfrom hto hitem
  down := h.down

theorem start (h : Hears engine) (hdown : engine.phase = .down) :
    Hears { engine with
      phase := .recovering
      live := engine.bus.subscribe
      subscribed := engine.sent.length
      position := engine.sent.length } where
  records := h.records
  holds := by
    obtain ⟨-, hreplayed, -⟩ := h.down hdown
    have htail : engine.bus.subscribe = engine.sent.length := h.records.live.tail_eq
    refine ⟨Nat.le_of_eq htail.symm, Nat.le_of_eq htail, ?_, fun _ => rfl, fun h => nomatch h⟩
    exact hreplayed.trans (by rw [List.drop_length, List.take_nil])
  unique := h.unique
  known := h.known
  last id hid := nomatch (h.down hdown).1.symm.trans hid
  heard i _ hfrom hto _ := absurd hto (Nat.not_lt_of_le hfrom)
  down h := nomatch h

theorem restart (engine : Engine) (maxEvents maxBytes : Nat) :
    Hears { engine with
      bus := .bounded maxEvents maxBytes
      phase := .down, live := 0, last := none, replayed := [], pending := []
      sweeping := [], executing := none
      sent := [], subscribed := 0, position := 0, taken := [], skipped := [] } where
  records := .bounded maxEvents maxBytes
  holds := ⟨Nat.le_refl _, Nat.le_refl _, rfl, fun _ => rfl, fun h => nomatch h⟩
  unique := List.nodup_nil
  known := List.forall_mem_nil _
  last _ h := nomatch h
  heard _ _ _ hto := absurd hto (Nat.not_lt_zero _)
  down _ := ⟨rfl, rfl, rfl, rfl, rfl⟩

/-- The loop takes the event at its position in. -/
theorem take (h : Hears engine) (hwatching : engine.phase ≠ .down) {live : Nat}
    {replayed : List EventEnvelope} {event : EventEnvelope}
    (hitem : engine.sent[engine.position]? = some event)
    (hholds : (⟨live, live, replayed, false⟩ : Follower).Holds engine.sent (engine.position + 1)) :
    Hears (Engine.take mayTrigger { engine with live, replayed } event) where
  records := h.records
  holds := hholds
  unique := h.unique
  known := h.known
  last id hid := ⟨engine.position, event, hitem, Option.some.inj hid, .inl rfl⟩
  heard i other hfrom hto hother := by
    rcases Nat.lt_succ_iff_lt_or_eq.mp hto with hlt | rfl
    · exact (h.heard i other hfrom hlt hother).imp_left fun ⟨runs, hmem⟩ =>
        ⟨runs, List.mem_append_left _ hmem⟩
    · obtain rfl := Option.some.inj (hitem.symm.trans hother)
      exact .inl ⟨_, List.mem_append_right _ (List.mem_singleton_self _)⟩
  down hdown := absurd hdown hwatching

/-- The event taken last is in the buffer, so nothing is passed over by a resume. -/
theorem resume (h : Hears engine) (hwatching : engine.phase ≠ .down)
    {replayed : List EventEnvelope} {live : Nat} (hresumed : engine.resumed = some (replayed, live)) :
    Hears { engine with replayed, live } := by
  unfold Engine.resumed at hresumed
  split at hresumed
  next replay live' hresume =>
    obtain ⟨rfl, rfl⟩ := Prod.mk.inj (Option.some.inj hresumed)
    obtain ⟨id, hlast, hresume⟩ := Option.map_eq_some_iff.mp hresume
    obtain ⟨rfl, first, hfirst, hleft, hid, -, rfl⟩ := h.records.resume hresume
    obtain ⟨i, event, hitem, hevent, hwhere⟩ := h.last id hlast
    have hsame : i = first :=
      h.sent_inj hitem (List.getElem?_eq_getElem hfirst) (hevent.trans hid.symm)
    have hposition : first + 1 = engine.position :=
      hsame ▸ hwhere.resolve_right fun hlt => absurd (hsame ▸ hlt) (Nat.not_lt_of_le hleft)
    refine { h with
      holds := ⟨h.position_le, Nat.le_refl _, ?_, fun _ => rfl, fun h => nomatch h⟩
      down := fun hdown => absurd hdown hwatching }
    change engine.sent.drop (first + 1) = _
    rw [hposition]
    exact (List.take_of_length_le (Nat.le_of_eq List.length_drop)).symm
  next => cases hresumed

/-- The loop passes events over, and goes on with the oldest that the channel holds. -/
theorem passOver (h : Hears engine) (hwatching : engine.phase ≠ .down) {missed live : Nat}
    (hnil : engine.replayed = []) (hnone : engine.resumed = none)
    (hlagged : engine.bus.live.recv engine.live = (.lagged missed, live)) :
    Hears { engine with
      live
      position := engine.position + missed
      skipped := engine.skipped ++ engine.passedOver mayTrigger missed } := by
  have hposition : engine.position = engine.live := h.holds.position_eq hnil
  have hrecv := h.records.live.recv (hposition ▸ h.position_le : engine.live ≤ engine.sent.length)
  rw [hlagged] at hrecv
  obtain ⟨-, rfl, holdest⟩ := hrecv
  rw [← hposition] at holdest
  have hle : engine.position + missed ≤ engine.sent.length := holdest ▸ Nat.sub_le ..
  refine { h with
    holds := ⟨Nat.le_of_eq (congrArg (· + missed) hposition), hposition ▸ hle, ?_, fun _ => rfl,
      fun h => nomatch h⟩
    last := fun id hid => ?_
    heard := fun i event hfrom hto hitem => ?_
    down := fun hdown => absurd hdown hwatching }
  · have hnext : engine.live + missed - (engine.position + missed) = 0 := by omega
    change engine.replayed = List.take (engine.live + missed - _) _
    rw [hnil, hnext, List.take_zero]
  · obtain ⟨i, event, hitem, hevent, -⟩ := h.last id hid
    unfold Engine.resumed at hnone
    rw [(hid : engine.last = some id), Option.map_some] at hnone
    generalize hresume : engine.bus.resume id = result at hnone
    obtain ⟨_ | _, live⟩ := result
    · cases hnone
    · exact ⟨i, event, hitem, hevent, .inr (h.records.resume_expired hresume hitem hevent)⟩
  · rcases Nat.lt_or_ge i engine.position with hlt | hge
    · exact (h.heard i event hfrom hlt hitem).imp_right fun ⟨lost, hmem⟩ =>
        ⟨lost, List.mem_append_left _ hmem⟩
    · obtain ⟨n, rfl⟩ := Nat.exists_eq_add_of_le hge
      have hn : n < missed := Nat.lt_of_add_lt_add_left hto
      refine .inr ⟨_, List.mem_append_right _ (List.mem_map_of_mem ?_)⟩
      exact List.mem_of_getElem? ((List.getElem?_take_of_lt hn).trans
        (List.getElem?_drop.trans hitem))

end Hears

end Automation

end RDownloader
