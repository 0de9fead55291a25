import RDownloader.Lib.Counting
import RDownloader.Usenet.Pool

/-!
# How many connections a pool has open

A broken line goes off the list as soon as anybody looks at it, and the requests still on it keep it
open. The pool keeps to its limit as long as it opens no connection where such a line needs the
room.
-/

namespace RDownloader

namespace RequestPhase

/-- The phases that hold a reservation. -/
def reserves : RequestPhase δ α → Bool
  | .connecting | .opened _ | .pushed _ => true
  | .between | .looking | .choosing | .placed _ | .sending _ | .queued .. | .reading ..
  | .answered .. | .leaving .. | .done _ => false

def isConnecting : RequestPhase δ α → Bool
  | .connecting => true
  | .between | .looking | .choosing | .opened _ | .pushed _ | .placed _ | .sending _ | .queued ..
  | .reading .. | .answered .. | .leaving .. | .done _ => false

/-- The line a request has opened and not put on the list yet. -/
def opened? : RequestPhase δ α → Option Nat
  | .opened slot => some slot.line
  | .between | .looking | .choosing | .connecting | .pushed _ | .placed _ | .sending _ | .queued ..
  | .reading .. | .answered .. | .leaving .. | .done _ => none

theorem opening_le (phase : RequestPhase δ α) :
    (if phase.opened?.isSome then 1 else 0) + (if phase.isConnecting then 1 else 0) ≤
      if phase.reserves then 1 else 0 := by
  cases phase <;> simp [opened?, isConnecting, reserves]

end RequestPhase

namespace ServerPool

variable {pool next : ServerPool δ α} {request request' : Request δ α} {slot : Slot}

/-- Some request has a place on the line. -/
def isHeld (pool : ServerPool δ α) (line : Nat) : Bool :=
  pool.requests.any fun request => request.phase.slot?.any (·.line = line)

def isOpen (pool : ServerPool δ α) (line : Nat) : Bool :=
  line ∈ pool.listed || pool.isHeld line

/-- The connections that are open or being opened. -/
def openConnections (pool : ServerPool δ α) : Nat :=
  (List.range pool.opened).countP pool.isOpen + pool.requests.countP (·.phase.isConnecting)

def WithinLimit (pool : ServerPool δ α) : Prop := pool.openConnections ≤ pool.connections

/-- The broken lines that are off the list while some request still holds them. -/
def strays (pool : ServerPool δ α) : Nat :=
  (List.range pool.opened).countP fun line =>
    (pool.lines line).broken && line ∉ pool.listed && pool.isHeld line

/-- A request that opens a connection finds room for the stray lines as well. -/
def Roomy (pool : ServerPool δ α) : PoolEvent δ → Prop
  | .act index .choose => ∀ request ∈ pool.requests[index]?,
    (pool.choice request.loop.unconfirmed.isSome matches .connect) →
      pool.listed.length + pool.connecting + pool.strays < pool.connections
  | _ => True

instance (pool : ServerPool δ α) (event : PoolEvent δ) : Decidable (pool.Roomy event) :=
  match event with
  | .act index .choose => inferInstanceAs (Decidable (∀ request ∈ pool.requests[index]?,
    (pool.choice request.loop.unconfirmed.isSome matches .connect) →
      pool.listed.length + pool.connecting + pool.strays < pool.connections))
  | _ => by unfold Roomy; split <;> infer_instance

/-! ## What a step of a request can do -/

/-- The step of one request, as far as connections go. -/
structure Moves (pool next : ServerPool δ α) (index : Nat) (request request' : Request δ α) :
    Prop where
  requests : next.requests = pool.requests.set index request'
  connections : next.connections = pool.connections
  broken : ∀ line, (pool.lines line).broken → (next.lines line).broken
  /-- What goes off the list is broken. -/
  listed : ∀ line ∈ pool.listed, line ∈ next.listed ∨ (next.lines line).broken
  /-- What comes onto the list is the request's own line. -/
  origin : ∀ line ∈ next.listed, line ∈ pool.listed ∨ request.phase.slot?.any (·.line = line)
  slot : ∀ slot, request'.phase.slot? = some slot →
    slot.line ∈ next.listed ∨ request'.phase.opened? = some slot.line ∨
      request.phase.slot? = some slot ∧ request.phase.opened? = none
  reserved : next.connecting + (if request.phase.reserves then 1 else 0) =
    pool.connecting + if request'.phase.reserves then 1 else 0

/-- Nothing is opened. -/
structure Settles (pool next : ServerPool δ α) (request request' : Request δ α) : Prop where
  opened : next.opened = pool.opened
  connecting : request'.phase.isConnecting → request.phase.isConnecting
  slot : ∀ slot, request'.phase.slot? = some slot →
    slot.line ∈ pool.listed ∨ request.phase.slot? = some slot

/-- A connection that was being opened is made. -/
structure Opens (pool next : ServerPool δ α) (request request' : Request δ α) : Prop where
  opened : next.opened = pool.opened + 1
  before : request.phase.isConnecting
  after : request'.phase.isConnecting = false
  slot : ∀ slot, request'.phase.slot? = some slot → slot.line = pool.opened

/-- A connection begins to be opened. -/
structure Connects (pool next : ServerPool δ α) (request request' : Request δ α) : Prop where
  opened : next.opened = pool.opened
  before : request.phase = .choosing
  choice : pool.choice request.loop.unconfirmed.isSome = .connect
  slot : request'.phase.slot? = none

theorem mem_leastLoaded {candidates : List Nat} (h : pool.leastLoaded candidates = some line) :
    line ∈ candidates := by
  induction candidates generalizing line with
  | nil => cases h
  | cons first rest ih =>
    simp only [leastLoaded] at h
    split at h
    · simp_all
    · next other hother =>
      split at h
      · cases h
        exact List.mem_cons_of_mem _ (ih hother)
      · simp_all

theorem choice_use {alone : Bool} (h : pool.choice alone = .use slot) :
    slot.line ∈ pool.listed := by
  simp only [choice] at h
  split at h
  · next line hidle =>
    cases h
    exact List.mem_of_find?_eq_some hidle
  · split at h
    · cases h
    · split at h
      · cases h
      · split at h
        · next line hleast =>
          cases h
          exact (List.mem_filter.mp (mem_leastLoaded hleast)).1
        · cases h

/-- What one step of a request does. -/
def Stirs (pool next : ServerPool δ α) (index : Nat) (request : Request δ α) : Prop :=
  ∃ request', Moves pool next index request request' ∧
    (Settles pool next request request' ∨ Opens pool next request request' ∨
      Connects pool next request request')

/-- Nothing is opened, and what goes off the list is broken. -/
structure Keeps (pool next : ServerPool δ α) : Prop where
  connections : next.connections = pool.connections
  opened : next.opened = pool.opened
  broken : ∀ line, (pool.lines line).broken → (next.lines line).broken
  listed : ∀ line ∈ pool.listed, line ∈ next.listed ∨ (next.lines line).broken
  origin : ∀ line ∈ next.listed, line ∈ pool.listed

theorem Keeps.put (h : Keeps pool next) (index : Nat) (request : Request δ α)
    (phase : RequestPhase δ α) : Keeps pool (next.put index request phase) :=
  ⟨h.connections, h.opened, h.broken, h.listed, h.origin⟩

theorem Keeps.refl (pool : ServerPool δ α) : Keeps pool pool :=
  ⟨rfl, rfl, fun _ h => h, fun _ h => .inl h, fun _ h => h⟩

theorem Keeps.depth (h : Keeps pool next) (depth : Nat) : Keeps pool { next with depth } :=
  ⟨h.connections, h.opened, h.broken, h.listed, h.origin⟩

theorem Keeps.updateLine (pool : ServerPool δ α) (line : Nat) {f : Line δ → Line δ}
    (hf : (pool.lines line).broken → (f (pool.lines line)).broken) :
    Keeps pool (pool.updateLine line f) := by
  refine ⟨rfl, rfl, fun other hbroken => ?_, fun _ h => .inl h, fun _ h => h⟩
  simp only [ServerPool.updateLine]
  split
  · next hline =>
    subst hline
    exact hf hbroken
  · exact hbroken

theorem Keeps.retire (pool : ServerPool δ α) (line : Nat) : Keeps pool (pool.retire line) := by
  have h := Keeps.updateLine pool line (f := fun line => { line with broken := true })
    fun _ => rfl
  refine ⟨rfl, rfl, h.broken, fun other hother => ?_, fun _ hother => List.mem_of_mem_filter hother⟩
  rcases eq_or_ne other line with rfl | hne
  · exact .inr (by simp [ServerPool.retire, retain, ServerPool.updateLine])
  · exact .inl (List.mem_filter.mpr ⟨hother, decide_eq_true hne⟩)

/-- Locking the list drops the broken lines from it. -/
theorem Keeps.lock (pool : ServerPool δ α) (locked : Bool) :
    Keeps pool { pool.retain (fun line => !(pool.lines line).broken) with locked } := by
  refine ⟨rfl, rfl, fun _ h => h, fun line hline => ?_, fun _ h => List.mem_of_mem_filter h⟩
  cases hbroken : (pool.lines line).broken with
  | true => exact .inr hbroken
  | false => exact .inl (List.mem_filter.mpr ⟨hline, by simp [hbroken]⟩)

theorem Keeps.connecting (h : Keeps pool next) (connecting : Nat) :
    Keeps pool { next with connecting } :=
  ⟨h.connections, h.opened, h.broken, h.listed, h.origin⟩

theorem Keeps.release (pool : ServerPool δ α) (slot : Slot) : Keeps pool (pool.release slot) :=
  .updateLine pool slot.line fun h => h

/-- A request that keeps its place on a line, or has none any more. -/
theorem Keeps.stirs (h : Keeps pool next)
    (hrequests : next.requests = pool.requests.set index request')
    (hslot : request'.phase.slot? = none ∨
      request'.phase.slot? = request.phase.slot? ∧ request.phase.opened? = none)
    (hreserved : next.connecting + (if request.phase.reserves then 1 else 0) =
      pool.connecting + if request'.phase.reserves then 1 else 0)
    (hconnecting : request'.phase.isConnecting = false) :
    Stirs pool next index request := by
  refine ⟨request', ⟨hrequests, h.connections, h.broken, h.listed, fun line hline =>
    .inl (h.origin line hline), fun slot hslot' => ?_, hreserved⟩,
    .inl ⟨h.opened, by simp [hconnecting], ?_⟩⟩
  · obtain hnone | ⟨hsame, hopened⟩ := hslot
    · cases hnone.symm.trans hslot'
    · exact .inr (.inr ⟨hsame.symm.trans hslot', hopened⟩)
  · intro slot hslot'
    obtain hnone | ⟨hsame, -⟩ := hslot
    · cases hnone.symm.trans hslot'
    · exact .inr (hsame.symm.trans hslot')

/-- A request in a phase is put in another one, on the same place or on none. -/
theorem Keeps.puts (h : Keeps pool next) (hrequests : next.requests = pool.requests)
    (hconnecting : next.connecting = pool.connecting) {before after : RequestPhase δ α}
    {other : Request δ α} (hphase : request.phase = before)
    (hslot : after.slot? = none ∨ after.slot? = before.slot? ∧ before.opened? = none)
    (hreserves : before.reserves = after.reserves) (hafter : after.isConnecting = false) :
    Stirs pool (next.put index other after) index request := by
  subst hphase
  have hset : (next.put index other after).requests =
      pool.requests.set index { other with phase := after } := by
    rw [← hrequests]
    rfl
  have hsame : (next.put index other after).connecting = pool.connecting := hconnecting
  refine (h.put index other after).stirs hset hslot ?_ hafter
  rw [hsame, hreserves]

/-- A request whose reservation has done its work gives it back. -/
theorem Keeps.unreserves (h : Keeps pool next) (hconnecting : next.connecting = pool.connecting)
    (hpositive : 0 < pool.connecting) (hrequests : next.requests = pool.requests)
    {phase : RequestPhase δ α} {loop : ArticleLoop} (hphase : request.phase.reserves)
    (hslot : phase.slot? = none ∨
      phase.slot? = request.phase.slot? ∧ request.phase.opened? = none)
    (hreserves : phase.reserves = false) (hafter : phase.isConnecting = false) :
    Stirs pool (next.unreserve.put index { request with loop } phase) index request := by
  have hkeeps : Keeps pool (next.unreserve.put index { request with loop } phase) :=
    (h.connecting (next.connecting - 1)).put ..
  have hrequests : (next.unreserve.put index { request with loop } phase).requests =
      pool.requests.set index { request with loop, phase } := by
    rw [← hrequests]
    rfl
  refine hkeeps.stirs hrequests hslot ?_ hafter
  have hless : (next.unreserve.put index { request with loop } phase).connecting =
      pool.connecting - 1 := by
    rw [← hconnecting]
    rfl
  simp only [hless, hphase, hreserves, if_true, if_false, Bool.false_eq_true]
  omega

section
variable {decodeYenc : δ → Except Text α} {step : Act}

theorem cancel_stirs (hpositive : request.phase.reserves → 0 < pool.connecting)
    (h : pool.cancel index request delivered = some next) : Stirs pool next index request := by
  unfold cancel at h
  split at h
  case h_1 hphase | h_2 hphase =>
    cases h
    exact (Keeps.refl pool).puts rfl rfl hphase (.inl rfl) rfl rfl
  case h_3 hphase =>
    cases h
    exact (Keeps.refl pool).unreserves rfl (hpositive (by rw [hphase]; rfl)) rfl
      (by rw [hphase]; rfl) (.inl rfl) rfl rfl
  case h_4 slot hphase =>
    cases h
    exact (Keeps.release pool slot).unreserves rfl (hpositive (by rw [hphase]; rfl)) rfl
      (by rw [hphase]; rfl) (.inl rfl) rfl rfl
  case h_5 slot hphase =>
    cases h
    exact (Keeps.refl pool).puts rfl rfl hphase (.inr ⟨rfl, rfl⟩) rfl rfl
  case h_6 slot hphase =>
    cases h
    exact (Keeps.updateLine pool slot.line fun h => h).puts rfl rfl hphase (.inr ⟨rfl, rfl⟩) rfl rfl
  case h_7 slot turn hphase | h_8 slot turn hphase =>
    cases h
    exact (Keeps.updateLine pool slot.line fun _ => rfl).puts rfl rfl hphase
      (.inr ⟨rfl, rfl⟩) rfl rfl
  case h_9 slot outcome hphase =>
    split at h
    · cases h
      exact (Keeps.updateLine pool slot.line fun _ => rfl).puts rfl rfl hphase
        (.inr ⟨rfl, rfl⟩) rfl rfl
    · cases h
  all_goals cases h

/-- A request that takes its place on a line of the list. -/
theorem take_stirs (hphase : request.phase = .choosing) (hmem : slot.line ∈ pool.listed) :
    Stirs pool (({ pool with locked := false }.take slot).put index request (.placed slot)) index
      request := by
  have hkeeps := (Keeps.updateLine { pool with locked := false } slot.line
    (f := fun line => { line with
      inFlight := line.inFlight + 1, reserved := line.reserved || slot.exclusive }) fun h => h).put
    index request (.placed slot)
  refine ⟨{ request with phase := .placed slot }, ⟨rfl, rfl, hkeeps.broken, hkeeps.listed,
    fun line hline => .inl (hkeeps.origin line hline), ?_, by rw [hphase]; rfl⟩,
    .inl ⟨rfl, nofun, ?_⟩⟩
  · intro slot' h
    obtain rfl : slot = slot' := Option.some.inj h
    exact .inl hmem
  · intro slot' h
    obtain rfl : slot = slot' := Option.some.inj h
    exact .inl hmem

theorem connect_stirs (hphase : request.phase = .choosing)
    (hchoice : pool.choice request.loop.unconfirmed.isSome = .connect) :
    Stirs pool ({ pool with locked := false, connecting := pool.connecting + 1 }.put index request
      .connecting) index request :=
  ⟨{ request with phase := .connecting }, ⟨rfl, rfl, fun _ h => h, fun _ h => .inl h,
    fun _ h => .inl h, nofun, by rw [hphase]; rfl⟩,
    .inr (.inr ⟨rfl, hphase, hchoice, rfl⟩)⟩

theorem connected_stirs (hphase : request.phase = .connecting) {exclusive : Bool} :
    Stirs pool (({ pool with opened := pool.opened + 1 }.take ⟨pool.opened, exclusive⟩).put index
      request (.opened ⟨pool.opened, exclusive⟩)) index request := by
  have hkeeps := Keeps.updateLine pool pool.opened
    (f := fun line => { line with
      inFlight := line.inFlight + 1, reserved := line.reserved || exclusive }) fun h => h
  refine ⟨{ request with phase := .opened ⟨pool.opened, exclusive⟩ }, ⟨rfl, rfl, hkeeps.broken,
    fun _ h => .inl h, fun _ h => .inl h, ?_, by rw [hphase]; rfl⟩,
    .inr (.inl ⟨rfl, by rw [hphase]; rfl, rfl, ?_⟩)⟩
  · intro slot h
    obtain rfl : (⟨pool.opened, exclusive⟩ : Slot) = slot := Option.some.inj h
    exact .inr (.inl rfl)
  · intro slot h
    obtain rfl : (⟨pool.opened, exclusive⟩ : Slot) = slot := Option.some.inj h
    rfl

theorem push_stirs (hphase : request.phase = .opened slot) :
    Stirs pool ({ pool with listed := pool.listed ++ [slot.line] }.put index request
      (.pushed slot)) index request := by
  refine ⟨{ request with phase := .pushed slot }, ⟨rfl, rfl, fun _ h => h, fun line h =>
    .inl (List.mem_append_left _ h), fun line h => ?_, fun slot' h => ?_, by rw [hphase]; rfl⟩,
    .inl ⟨rfl, nofun, fun slot' h => ?_⟩⟩
  · refine (List.mem_append.mp h).imp_right fun h => ?_
    rw [hphase, List.mem_singleton.mp h]
    simp [RequestPhase.slot?]
  · obtain rfl : slot = slot' := Option.some.inj h
    exact .inl (List.mem_append_right _ (List.mem_singleton_self _))
  · obtain rfl : slot = slot' := Option.some.inj h
    exact .inr (by rw [hphase]; rfl)

theorem readAnswer_broken {line line' : Line δ} {turn : Nat} {expected : Text} {outcome : Outcome δ}
    (h : line.readAnswer turn expected = some (outcome, line')) (hbroken : line.broken) :
    line'.broken := by
  unfold Line.readAnswer at h
  split at h
  · cases h
  · obtain h := Option.some.inj h
    dsimp only at h
    split at h
    · split at h
      · cases h
        exact hbroken
      · split at h
        · cases h
          exact hbroken
        · split at h <;> cases h
          · rfl
          · exact hbroken
    all_goals
      cases h
      first | exact hbroken | rfl

/-- One case for each thing a request can do. -/
theorem act_stirs (hpositive : request.phase.reserves → 0 < pool.connecting)
    (h : pool.act decodeYenc index request step = some next) : Stirs pool next index request := by
  unfold ServerPool.act at h
  split at h
  case h_1 hphase =>
    split at h <;> cases h
    all_goals
      exact (Keeps.refl pool).puts rfl rfl hphase (.inl rfl) rfl rfl
  case h_2 hphase =>
    split at h <;> cases h
    exact (Keeps.lock pool true).puts rfl rfl hphase (.inl rfl) rfl rfl
  case h_3 hphase =>
    split at h <;> cases h
    case h_1 slot hchoice => exact take_stirs hphase (choice_use hchoice)
    case h_2 hchoice => exact connect_stirs hphase hchoice
    case h_3 =>
      have hkeeps : Keeps pool { pool with locked := false } :=
        ⟨rfl, rfl, fun _ h => h, fun _ h => .inl h, fun _ h => h⟩
      exact hkeeps.puts rfl rfl hphase (.inl rfl) rfl rfl
  case h_4 hphase =>
    cases h
    exact connected_stirs hphase
  case h_5 hphase =>
    cases h
    exact (Keeps.refl pool).unreserves rfl (hpositive (by rw [hphase]; rfl)) rfl
      (by rw [hphase]; rfl) (.inl rfl) rfl rfl
  case h_6 slot hphase =>
    split at h <;> cases h
    exact push_stirs hphase
  case h_7 slot hphase =>
    cases h
    exact (Keeps.refl pool).unreserves rfl (hpositive (by rw [hphase]; rfl)) rfl
      (by rw [hphase]; rfl) (.inr ⟨by rw [hphase]; rfl, by rw [hphase]; rfl⟩) rfl rfl
  case h_8 slot hphase =>
    dsimp only at h
    split at h
    · cases h
    · split at h <;> cases h
      · exact (Keeps.refl pool).puts rfl rfl hphase (.inr ⟨rfl, rfl⟩) rfl rfl
      · exact (Keeps.updateLine pool slot.line fun h => h).puts rfl rfl hphase
          (.inr ⟨rfl, rfl⟩) rfl rfl
  case h_9 slot hphase =>
    split at h <;> cases h
    exact (Keeps.updateLine pool slot.line fun h => h).puts rfl rfl hphase (.inr ⟨rfl, rfl⟩) rfl rfl
  case h_10 slot _ _ hphase =>
    cases h
    exact (Keeps.updateLine pool slot.line fun _ => rfl).puts rfl rfl hphase
      (.inr ⟨rfl, rfl⟩) rfl rfl
  case h_11 slot turn hphase =>
    have hcollateral : Stirs pool ((pool.updateLine slot.line (·.dropTurn turn)).put index request
        (.answered slot .collateral)) index request :=
      (Keeps.updateLine pool slot.line fun _ => rfl).puts rfl rfl hphase (.inr ⟨rfl, rfl⟩) rfl rfl
    have hreading : Stirs pool (pool.put index request (.reading slot turn)) index request :=
      (Keeps.refl pool).puts rfl rfl hphase (.inr ⟨rfl, rfl⟩) rfl rfl
    dsimp only at h
    split at h
    · cases h
    · cases h
      exact hcollateral
    all_goals
      split at h <;> cases h
      · exact hcollateral
      · exact hreading
  case h_12 slot turn hphase =>
    obtain ⟨⟨outcome, line⟩, hread, rfl⟩ := Option.map_eq_some_iff.mp h
    exact (Keeps.updateLine pool slot.line (readAnswer_broken hread)).puts rfl rfl hphase
      (.inr ⟨rfl, rfl⟩) rfl rfl
  case h_13 slot turn _ hphase =>
    cases h
    exact (Keeps.updateLine pool slot.line fun _ => rfl).puts rfl rfl hphase
      (.inr ⟨rfl, rfl⟩) rfl rfl
  case h_14 slot outcome hphase =>
    dsimp only at h
    cases hretires : outcome.retires with
    | true =>
      rw [hretires, if_pos rfl] at h
      split at h
      · cases h
      · obtain rfl := Option.some.inj h
        exact ((Keeps.retire pool slot.line).depth _).puts rfl rfl hphase (.inr ⟨rfl, rfl⟩) rfl rfl
    | false =>
      rw [hretires, if_neg Bool.false_ne_true] at h
      obtain rfl := Option.some.inj h
      have hkeeps : Keeps pool { pool with depth := if outcome.outOfStep then 1 else pool.depth } :=
        (Keeps.refl pool).depth _
      exact hkeeps.puts rfl rfl hphase (.inr ⟨rfl, rfl⟩) rfl rfl
  case h_15 slot after hphase =>
    split at h <;> cases h
    all_goals
      exact (Keeps.release pool slot).puts rfl rfl hphase (.inl rfl) rfl rfl
  case h_16 => exact cancel_stirs hpositive h
  case h_17 => cases h

/-- Under the lock a request can only choose. -/
theorem eq_choose (hphase : request.phase = .choosing)
    (h : pool.act decodeYenc index request step = some next) : step = .choose := by
  cases step <;> simp [ServerPool.act, cancel, hphase] at h ⊢

end

/-! ## The limit -/

/-- What the pool's list and its count of reservations say of the requests. -/
structure Inv (pool : ServerPool δ α) : Prop where
  /-- A line somebody holds is on the list, unless it is broken or has just been opened. -/
  held : ∀ request ∈ pool.requests, ∀ slot, request.phase.slot? = some slot →
    slot.line ∈ pool.listed ∨ (pool.lines slot.line).broken ∨
      request.phase.opened? = some slot.line
  reserved : pool.requests.countP (·.phase.reserves) = pool.connecting

theorem Inv.reserves_pos (h : pool.Inv) (hrequest : request ∈ pool.requests)
    (hreserves : request.phase.reserves) : 0 < pool.connecting := by
  rw [← h.reserved]
  exact List.countP_pos_iff.mpr ⟨request, hrequest, hreserves⟩

theorem Inv.moves (h : pool.Inv) (hindex : pool.requests[index]? = some request)
    (hmoves : Moves pool next index request request') : next.Inv := by
  have hlines : ∀ line, line ∈ pool.listed ∨ (pool.lines line).broken →
      line ∈ next.listed ∨ (next.lines line).broken := by
    rintro line (hline | hline)
    · exact hmoves.listed line hline
    · exact .inr (hmoves.broken line hline)
  constructor
  · intro other hother slot hslot
    rw [hmoves.requests] at hother
    rcases List.mem_or_eq_of_mem_set hother with hother | rfl
    · obtain hline | hline | hopened := h.held other hother slot hslot
      · exact (hlines _ (.inl hline)).imp_right .inl
      · exact .inr (.inl (hmoves.broken _ hline))
      · exact .inr (.inr hopened)
    · obtain hline | hopened | ⟨hbefore, hopened⟩ := hmoves.slot slot hslot
      · exact .inl hline
      · exact .inr (.inr hopened)
      · obtain hline | hline | hopened' :=
          h.held request (List.mem_of_getElem? hindex) slot hbefore
        · exact (hlines _ (.inl hline)).imp_right .inl
        · exact .inr (.inl (hmoves.broken _ hline))
        · cases hopened.symm.trans hopened'
  · have hcount := Counting.countP_set_add hindex (fun request => request.phase.reserves) request'
    have hreserved := hmoves.reserved
    rw [hmoves.requests]
    rw [h.reserved] at hcount
    omega

/-- An open line that no request is adding to the list is on the list, or it is stray. -/
theorem Inv.isOpen_cases (h : pool.Inv) (hopen : pool.isOpen line) :
    line ∈ pool.listed ∨ ((pool.lines line).broken && line ∉ pool.listed && pool.isHeld line) ∨
      ∃ request ∈ pool.requests, request.phase.opened? = some line := by
  by_cases hlisted : line ∈ pool.listed
  · exact .inl hlisted
  · have hheld : pool.isHeld line := by simpa [isOpen, hlisted] using hopen
    obtain ⟨request, hrequest, hline⟩ := List.any_eq_true.mp hheld
    obtain ⟨slot, hslot, hline⟩ := Option.any_eq_true _ _ |>.mp hline
    obtain rfl := of_decide_eq_true hline
    obtain hmem | hbroken | hopened := h.held request hrequest slot hslot
    · exact absurd hmem hlisted
    · exact .inr (.inl (by simp [hbroken, hlisted, hheld]))
    · exact .inr (.inr ⟨request, hrequest, hopened⟩)

theorem opening_le_reserved (requests : List (Request δ α)) :
    requests.countP (·.phase.opened?.isSome) + requests.countP (·.phase.isConnecting) ≤
      requests.countP (·.phase.reserves) := by
  induction requests with
  | nil => simp
  | cons request requests ih =>
    have := request.phase.opening_le
    simp only [List.countP_cons]
    omega

/-- The list, the connections being opened and the stray lines are all there are. -/
theorem Inv.openConnections_le (h : pool.Inv) :
    pool.openConnections ≤ pool.listed.length + pool.connecting + pool.strays := by
  have hlisted := Counting.countP_any_le (List.nodup_range (n := pool.opened)) some pool.listed
  have hopened := Counting.countP_any_le (List.nodup_range (n := pool.opened))
    (fun request : Request δ α => request.phase.opened?) pool.requests
  have hsplit : (List.range pool.opened).countP pool.isOpen ≤
      (List.range pool.opened).countP (fun line =>
        (pool.listed.any fun listed => some listed = some line) ||
          ((pool.lines line).broken && line ∉ pool.listed && pool.isHeld line ||
            pool.requests.any fun request => request.phase.opened? = some line)) := by
    apply List.countP_mono_left
    intro line _ hopen
    obtain hline | hline | ⟨request, hrequest, hline⟩ := h.isOpen_cases hopen
    · simp [hline]
    · simp only [hline, Bool.true_or, Bool.or_true]
    · have : (pool.requests.any fun request => decide (request.phase.opened? = some line)) :=
        List.any_eq_true.mpr ⟨request, hrequest, decide_eq_true hline⟩
      simp [this]
  have houter := Counting.countP_or_le (fun line =>
    pool.listed.any fun listed => decide (some listed = some line)) (fun line =>
      ((pool.lines line).broken && line ∉ pool.listed && pool.isHeld line ||
        pool.requests.any fun request => request.phase.opened? = some line))
    (List.range pool.opened)
  have hinner := Counting.countP_or_le (fun line =>
      (pool.lines line).broken && line ∉ pool.listed && pool.isHeld line) (fun line =>
        pool.requests.any fun request => request.phase.opened? = some line)
    (List.range pool.opened)
  have hlength : pool.listed.countP (fun line => (some line).isSome) = pool.listed.length := by
    simp
  have hopening := opening_le_reserved pool.requests
  rw [h.reserved] at hopening
  rw [openConnections, strays]
  omega

theorem Moves.isOpen (hindex : pool.requests[index]? = some request)
    (hmoves : Moves pool next index request request') (hopen : next.isOpen line) :
    pool.isOpen line ∨ ∃ slot, request'.phase.slot? = some slot ∧ slot.line = line := by
  have hown : request.phase.slot?.any (·.line = line) → pool.isOpen line := fun h => by
    have : pool.isHeld line := List.any_eq_true.mpr ⟨request, List.mem_of_getElem? hindex, h⟩
    simp [ServerPool.isOpen, this]
  simp only [ServerPool.isOpen, Bool.or_eq_true, decide_eq_true_eq] at hopen
  obtain hline | hheld := hopen
  · refine .inl ((hmoves.origin line hline).elim (fun h => ?_) hown)
    simp [ServerPool.isOpen, h]
  · obtain ⟨other, hother, hline⟩ := List.any_eq_true.mp hheld
    rw [hmoves.requests] at hother
    rcases List.mem_or_eq_of_mem_set hother with hother | rfl
    · have : pool.isHeld line := List.any_eq_true.mpr ⟨other, hother, hline⟩
      exact .inl (by simp [ServerPool.isOpen, this])
    · obtain ⟨slot, hslot, hline⟩ := Option.any_eq_true _ _ |>.mp hline
      exact .inr ⟨slot, hslot, of_decide_eq_true hline⟩

theorem Moves.connecting (hindex : pool.requests[index]? = some request)
    (hmoves : Moves pool next index request request') :
    next.requests.countP (·.phase.isConnecting) +
        (if request.phase.isConnecting then 1 else 0) =
      pool.requests.countP (·.phase.isConnecting) +
        if request'.phase.isConnecting then 1 else 0 := by
  rw [hmoves.requests]
  exact Counting.countP_set_add hindex (fun request => request.phase.isConnecting) request'

theorem Settles.openConnections_le (hindex : pool.requests[index]? = some request)
    (hmoves : Moves pool next index request request')
    (hsettles : Settles pool next request request') :
    next.openConnections ≤ pool.openConnections := by
  have hlines : (List.range next.opened).countP next.isOpen ≤
      (List.range pool.opened).countP pool.isOpen := by
    rw [hsettles.opened]
    apply List.countP_mono_left
    intro line _ hopen
    obtain hopen | ⟨slot, hslot, rfl⟩ := hmoves.isOpen hindex hopen
    · exact hopen
    · obtain hline | hbefore := hsettles.slot slot hslot
      · simp [isOpen, hline]
      · have : pool.isHeld slot.line := by
          exact List.any_eq_true.mpr
            ⟨request, List.mem_of_getElem? hindex, by simp [hbefore]⟩
        simp [isOpen, this]
  have hconnecting := hmoves.connecting hindex
  have hle : (if request'.phase.isConnecting then 1 else 0) ≤
      if request.phase.isConnecting then 1 else 0 := by
    split
    · next h => simp [hsettles.connecting h]
    · exact Nat.zero_le _
  rw [openConnections, openConnections]
  omega

theorem Opens.openConnections_le (hindex : pool.requests[index]? = some request)
    (hmoves : Moves pool next index request request')
    (hopens : Opens pool next request request') : next.openConnections ≤ pool.openConnections := by
  have hlines : (List.range pool.opened).countP next.isOpen ≤
      (List.range pool.opened).countP pool.isOpen := by
    apply List.countP_mono_left
    intro line hline hopen
    obtain hopen | ⟨slot, hslot, rfl⟩ := hmoves.isOpen hindex hopen
    · exact hopen
    · rw [hopens.slot slot hslot] at hline
      exact absurd (List.mem_range.mp hline) (Nat.lt_irrefl _)
  have hconnecting := hmoves.connecting hindex
  simp only [hopens.before, hopens.after, if_true, Bool.false_eq_true, if_false] at hconnecting
  have hone : (if next.isOpen pool.opened then 1 else 0) ≤ 1 := by
    split <;> omega
  simp only [openConnections, hopens.opened, List.range_succ, List.countP_append,
    List.countP_singleton]
  omega

theorem Connects.openConnections_le (hindex : pool.requests[index]? = some request)
    (hmoves : Moves pool next index request request')
    (hconnects : Connects pool next request request') :
    next.openConnections ≤ pool.openConnections + 1 := by
  have hlines : (List.range next.opened).countP next.isOpen ≤
      (List.range pool.opened).countP pool.isOpen := by
    rw [hconnects.opened]
    apply List.countP_mono_left
    intro line _ hopen
    obtain hopen | ⟨slot, hslot, -⟩ := hmoves.isOpen hindex hopen
    · exact hopen
    · cases hconnects.slot.symm.trans hslot
  have hconnecting := hmoves.connecting hindex
  have hone : (if request'.phase.isConnecting then 1 else 0) ≤ 1 := by
    split <;> omega
  rw [openConnections, openConnections]
  omega

theorem Moves.withinLimit (h : pool.Inv) (hlimit : pool.WithinLimit)
    (hindex : pool.requests[index]? = some request)
    (hmoves : Moves pool next index request request')
    (hgrowth : Settles pool next request request' ∨ Opens pool next request request' ∨
      Connects pool next request request')
    (hroom : Connects pool next request request' →
      pool.listed.length + pool.connecting + pool.strays < pool.connections) :
    next.WithinLimit := by
  rw [WithinLimit, hmoves.connections]
  obtain hsettles | hopens | hconnects := hgrowth
  · exact Nat.le_trans (hsettles.openConnections_le hindex hmoves) hlimit
  · exact Nat.le_trans (hopens.openConnections_le hindex hmoves) hlimit
  · have hbefore := h.openConnections_le
    have hafter := hconnects.openConnections_le hindex hmoves
    have := hroom hconnects
    omega

theorem Inv.ask (h : pool.Inv) (messageId : Text) :
    Inv { pool with requests := pool.requests ++ [{ messageId }] } := by
  constructor
  · intro request hrequest slot hslot
    rcases List.mem_append.mp hrequest with hrequest | hrequest
    · exact h.held request hrequest slot hslot
    · obtain rfl := List.mem_singleton.mp hrequest
      cases hslot
  · simpa [List.countP_append, RequestPhase.reserves] using h.reserved

theorem ask_openConnections (messageId : Text) :
    ServerPool.openConnections { pool with requests := pool.requests ++ [{ messageId }] } =
      pool.openConnections := by
  have hopen : ServerPool.isOpen { pool with requests := pool.requests ++ [{ messageId }] } =
      pool.isOpen := by
    funext line
    simp [isOpen, isHeld, RequestPhase.slot?]
  simp [openConnections, hopen, RequestPhase.isConnecting]

theorem serve_spec (h : pool.serve line index answer = some next) :
    next.requests = pool.requests ∧ Keeps pool next ∧ next.connecting = pool.connecting ∧
      next.listed = pool.listed := by
  obtain ⟨command, -, rfl⟩ := Option.map_eq_some_iff.mp h
  have hkeeps := Keeps.updateLine pool line (f := fun line =>
    { line with
      unanswered := line.unanswered.eraseIdx index
      wire := line.wire ++ [⟨command, answer⟩] }) fun h => h
  exact ⟨rfl, ⟨rfl, rfl, hkeeps.broken, hkeeps.listed, hkeeps.origin⟩, rfl, rfl⟩

theorem Inv.serve (h : pool.Inv) (hserve : pool.serve line index answer = some next) :
    next.Inv := by
  obtain ⟨hrequests, hkeeps, hconnecting, hlisted⟩ := serve_spec hserve
  constructor
  · intro request hrequest slot hslot
    rw [hrequests] at hrequest
    rw [hlisted]
    exact (h.held request hrequest slot hslot).imp_right (.imp_left (hkeeps.broken _))
  · rw [hrequests, hconnecting]
    exact h.reserved

theorem serve_openConnections (hserve : pool.serve line index answer = some next) :
    next.openConnections = pool.openConnections := by
  obtain ⟨hrequests, hkeeps, -, hlisted⟩ := serve_spec hserve
  have hopen : next.isOpen = pool.isOpen := by
    funext line
    simp [isOpen, isHeld, hrequests, hlisted]
  rw [openConnections, openConnections, hopen, hkeeps.opened, hrequests]

section
variable {decodeYenc : δ → Except Text α} {event : PoolEvent δ}

theorem Inv.step (h : pool.Inv) (hlimit : pool.WithinLimit) (hroomy : pool.Roomy event)
    (hstep : pool.step decodeYenc event = some next) : next.Inv ∧ next.WithinLimit := by
  cases event with
  | ask messageId =>
    simp only [ServerPool.step] at hstep
    split at hstep <;> cases hstep
    refine ⟨h.ask messageId, ?_⟩
    rw [WithinLimit, ask_openConnections]
    exact hlimit
  | act index step =>
    obtain ⟨request, hindex, hact⟩ := Option.bind_eq_some_iff.mp hstep
    obtain ⟨request', hmoves, hgrowth⟩ :=
      act_stirs (h.reserves_pos (List.mem_of_getElem? hindex)) hact
    refine ⟨h.moves hindex hmoves, hmoves.withinLimit h hlimit hindex hgrowth fun hconnects => ?_⟩
    obtain rfl := eq_choose hconnects.before hact
    exact hroomy request hindex (by rw [hconnects.choice])
  | serve line index answer =>
    refine ⟨h.serve hstep, ?_⟩
    rw [WithinLimit, serve_openConnections hstep, (serve_spec hstep).2.1.connections]
    exact hlimit

theorem new_inv (connections : Nat) (outOfStep : Bool) :
    (new connections outOfStep : ServerPool δ α).Inv :=
  ⟨nofun, rfl⟩

/-- The provider's limit holds in every run whose requests leave room for the stray lines. -/
theorem withinLimit_of_roomy (h : (machine decodeYenc).Reaches Roomy pool) : pool.WithinLimit := by
  refine (h.invariant (fun pool => pool.Inv ∧ pool.WithinLimit) ?_ ?_).2
  · rintro _ ⟨connections, outOfStep, -, rfl⟩
    exact ⟨new_inv connections outOfStep, Nat.zero_le _⟩
  · intro pool event next ⟨hinv, hlimit⟩ hroomy hstep
    exact hinv.step hlimit hroomy hstep

/-- What a pool takes over from the server it is built for. -/
def BuiltFor (cap : Option Nat) (config : NntpServerConfig) (pool : ServerPool δ α) : Prop :=
  pool.connections ≤ config.maxConnections ∧ ∀ limit ∈ cap, pool.connections ≤ max limit 1

theorem gauged_add {outOfStep : Text × Nat → Bool} {cap : Option Nat} {config : NntpServerConfig}
    {servers servers' : List (ServerPool δ α)} {total total' : Nat}
    (h : gauged.add outOfStep cap (servers, total) config = .ok (servers', total')) :
    ∃ connections outOfStep, 0 < connections ∧
      servers' = servers ++ [new connections outOfStep] ∧ total' = total + connections ∧
      (new connections outOfStep : ServerPool δ α).BuiltFor cap config := by
  simp only [gauged.add] at h
  split at h
  · cases h
  · next hpositive =>
    cases cap with
    | none =>
      dsimp only at h
      split at h
      · cases h
      · cases h
        exact ⟨_, _, Nat.pos_of_ne_zero hpositive, rfl, rfl, Nat.le_refl _, nofun⟩
    | some cap =>
      dsimp only at h
      split at h
      · cases h
      · cases h
        have hmin : 0 < min config.maxConnections (max cap 1) := by omega
        refine ⟨_, _, hmin, rfl, rfl, Nat.min_le_left .., fun limit hlimit => ?_⟩
        obtain rfl := Option.some.inj hlimit
        exact Nat.min_le_right ..

theorem gauged_foldlM {outOfStep : Text × Nat → Bool} {cap : Option Nat}
    {configs : List NntpServerConfig} {servers servers' : List (ServerPool δ α)}
    {total total' : Nat}
    (h : configs.foldlM (gauged.add outOfStep cap) (servers, total) = .ok (servers', total')) :
    ∃ added, servers' = servers ++ added ∧ total' = total + (added.map (·.connections)).sum ∧
      List.Forall₂ (fun config pool => (machine decodeYenc).initial pool ∧ pool.BuiltFor cap config)
        configs added := by
  induction configs generalizing servers total with
  | nil =>
    cases h
    exact ⟨[], by simp, by simp, .nil⟩
  | cons config configs ih =>
    rw [List.foldlM_cons] at h
    cases hadd : gauged.add outOfStep cap (servers, total) config with
    | error error =>
      rw [hadd] at h
      cases h
    | ok first =>
      rw [hadd] at h
      obtain ⟨connections, outOfStep, hpositive, hservers, htotal, hbuilt⟩ := gauged_add hadd
      obtain ⟨added, hservers', htotal', hadded⟩ := ih h
      refine ⟨new connections outOfStep :: added, ?_, ?_,
        .cons ⟨⟨connections, outOfStep, hpositive, rfl⟩, hbuilt⟩ hadded⟩
      · rw [hservers', hservers, List.append_assoc, List.singleton_append]
      · rw [htotal', htotal, List.map_cons, List.sum_cons, Nat.add_assoc]
        rfl

/-- Each server of a pool starts with a limit of its own, and the limits add up to the connections
the pool may hold. -/
theorem gauged_ok {outOfStep : Text × Nat → Bool} {configs : List NntpServerConfig}
    {cap : Option Nat} {servers : List (ServerPool δ α)} {total : Nat}
    (h : gauged outOfStep configs cap = .ok (servers, total)) :
    total = (servers.map (·.connections)).sum ∧
      List.Forall₂ (fun config pool => (machine decodeYenc).initial pool ∧ pool.BuiltFor cap config)
        configs servers := by
  unfold gauged at h
  split at h
  · cases h
  · obtain ⟨added, rfl, rfl, hadded⟩ := gauged_foldlM h
    exact ⟨by simp, hadded⟩

end

/-! ## A line that breaks under two requests -/

section

/-- Bodies that are articles as they come. -/
def plainDecode (data : Nat) : Except Text Nat := .ok data

/-- Two requests on the one line a pool of one connection may open. -/
def shareLine : List (PoolEvent Nat) :=
  [.ask ['a'], .act 0 .pass, .act 0 .lock, .act 0 .choose, .act 0 .connected, .act 0 .push,
    .act 0 .unreserve, .act 0 .lockWriter, .act 0 .send, .act 0 .turn,
    .ask ['b'], .act 1 .pass, .act 1 .lock, .act 1 .choose, .act 1 .lockWriter, .act 1 .send]

/-- The line breaks under the first, which asks again on a new one. -/
def askAgain : List (PoolEvent Nat) :=
  [.act 0 (.readBreaks ['x']), .act 0 .settle, .act 0 .leave, .act 0 .pass, .act 0 .lock,
    .act 0 .choose]

/-- The second learns that the line is broken and leaves it. -/
def leaveBroken : List (PoolEvent Nat) :=
  [.act 1 .turn, .act 1 .settle, .act 1 .leave]

theorem new_reaches {allowed : ServerPool Nat Nat → PoolEvent Nat → Prop} :
    (machine plainDecode).Reaches allowed (new 1 false) :=
  .initial ⟨1, false, Nat.one_pos, rfl⟩

/-- The second still holds the broken line, so the pool that may open one connection has two. -/
theorem limit_exceeded : ∃ pool, (machine plainDecode).Reaches Machine.anything pool ∧
    pool.connections = 1 ∧ pool.openConnections = 2 := by
  have hrun : ∃ pool, (machine plainDecode).run (new 1 false) (shareLine ++ askAgain) = some pool ∧
      pool.connections = 1 ∧ pool.openConnections = 2 := ⟨_, rfl, by decide +kernel⟩
  obtain ⟨pool, hrun, hopen⟩ := hrun
  exact ⟨pool, new_reaches.run hrun, hopen⟩

/-- Once both have left it, there is room for its successor. -/
def takeTurns : List (PoolEvent Nat) :=
  shareLine ++ [.act 0 (.readBreaks ['x'])] ++ leaveBroken ++ askAgain.tail

theorem withinLimit_of_roomy_takeTurns : ∃ pool,
    (machine plainDecode).run (new 1 false) takeTurns = some pool ∧ pool.openConnections = 1 ∧
      pool.WithinLimit := by
  have hwithin : (machine plainDecode).Within Roomy (new 1 false) takeTurns := by decide +kernel
  exact ⟨_, rfl, by decide +kernel, withinLimit_of_roomy (new_reaches.within hwithin rfl)⟩

end
end ServerPool
end RDownloader
