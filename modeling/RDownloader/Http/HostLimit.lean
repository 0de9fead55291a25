import RDownloader.Lib.Counting
import RDownloader.Lib.Machine

/-!
# Connections of one host (`rd-http/src/hostlimit.rs`)

A table gives each host its semaphore, and an entry nothing refers to may be swept out. What one
lock covers is one step; between two of them the other requests go on, in any order. Which waiting
request gets a free permit is left open.
-/

namespace RDownloader

/-- `MAX_CONNECTIONS_PER_HOST`. -/
def maxConnectionsPerHost : Nat := 32

/-- Hosts kept in the slot table before idle entries are swept out. -/
def maxTrackedHosts : Nat := 256

/-- The identity of an `Arc<Semaphore>`. -/
abbrev SemaphoreId := Nat

/-- How far a call of `acquire` is. -/
inductive AcquireStage where
  /-- It has read the limit. -/
  | limited (limit : Nat)
  /-- It refers to its host's semaphore and has yet to try it. -/
  | found (semaphore : SemaphoreId)
  | waiting (semaphore : SemaphoreId)
  /-- Its permit is outstanding. -/
  | holding (semaphore : SemaphoreId)
  /-- The permit is given back, the reference not dropped yet. -/
  | dropping (semaphore : SemaphoreId)
  | done
  deriving DecidableEq, Repr

namespace AcquireStage

/-- What it refers to. -/
def semaphore? : AcquireStage → Option SemaphoreId
  | .found semaphore | .waiting semaphore | .holding semaphore | .dropping semaphore =>
    some semaphore
  | .limited _ | .done => none

def isHolding : AcquireStage → Bool
  | .holding _ => true
  | _ => false

end AcquireStage

structure AcquireCall (Host : Type u) where
  host : Host
  stage : AcquireStage
  deriving DecidableEq, Repr

/-- The shared policy, with the calls of `acquire` so far. -/
structure HostLimits (Host : Type u) where
  limit : Nat
  slots : List (Host × SemaphoreId) := []
  /-- The permits each semaphore has left, and the semaphores created so far. -/
  permits : SemaphoreId → Nat := fun _ => 0
  created : SemaphoreId := 0
  /-- Calls of `set_limit` that have yet to clear the table. -/
  clears : Nat := 0
  calls : List (AcquireCall Host) := []

inductive HostLimitEvent (Host : Type u) where
  | setLimit (limit : Nat)
  | clear
  /-- `acquire` begins; an address without a host has no key. -/
  | call (host : Option Host)
  | enter (index : Nat)
  | tryAcquire (index : Nat)
  | wake (index : Nat)
  /-- The future is dropped while it waits. -/
  | giveUp (index : Nat)
  | release (index : Nat)
  | drop (index : Nat)
  deriving DecidableEq, Repr

namespace HostLimits

variable {Host : Type u} [DecidableEq Host] (state : HostLimits Host)

def new (limit : Nat) : HostLimits Host where
  limit := min limit maxConnectionsPerHost

/-- `Arc::strong_count`. -/
def strongCount (semaphore : SemaphoreId) : Nat :=
  state.slots.countP (·.2 = semaphore) +
    state.calls.countP (·.stage.semaphore? = some semaphore)

/-- The table a call finds under the lock: a full one without the idle entries. -/
def swept : HostLimits Host :=
  if maxTrackedHosts ≤ state.slots.length then
    { state with slots := state.slots.filter fun slot => 1 < state.strongCount slot.2 }
  else state

/-- `entry(host).or_insert_with`, for a call that has read `limit`. -/
def entry (host : Host) (limit : Nat) : HostLimits Host × SemaphoreId :=
  match state.slots.find? (·.1 = host) with
  | some slot => (state, slot.2)
  | none => ({ state with
      slots := state.slots ++ [(host, state.created)]
      permits := fun semaphore =>
        if semaphore = state.created then limit else state.permits semaphore
      created := state.created + 1 }, state.created)

def setStage (index : Nat) (call : AcquireCall Host) (stage : AcquireStage) : HostLimits Host :=
  { state with calls := state.calls.set index { call with stage } }

/-- A permit is taken. -/
def take (semaphore : SemaphoreId) : HostLimits Host :=
  { state with permits := fun other =>
      if other = semaphore then state.permits other - 1 else state.permits other }

/-- `add_permits(1)`. -/
def addPermit (semaphore : SemaphoreId) : HostLimits Host :=
  { state with permits := fun other =>
      if other = semaphore then state.permits other + 1 else state.permits other }

/-- What the call at `index` does next; `none` where it is not that far. -/
def act (index : Nat) (call : AcquireCall Host) (event : HostLimitEvent Host) :
    Option (HostLimits Host) :=
  match event, call.stage with
  | .enter _, .limited limit =>
    let made := state.swept.entry call.host limit
    some (made.1.setStage index call (.found made.2))
  | .tryAcquire _, .found semaphore =>
    if 0 < state.permits semaphore then
      some ((state.take semaphore).setStage index call (.holding semaphore))
    else some (state.setStage index call (.waiting semaphore))
  | .wake _, .waiting semaphore =>
    if 0 < state.permits semaphore then
      some ((state.take semaphore).setStage index call (.holding semaphore))
    else none
  | .giveUp _, .waiting _ => some (state.setStage index call .done)
  | .release _, .holding semaphore =>
    some ((state.addPermit semaphore).setStage index call (.dropping semaphore))
  | .drop _, .dropping _ => some (state.setStage index call .done)
  | _, _ => none

def step (event : HostLimitEvent Host) : Option (HostLimits Host) :=
  match event with
  | .setLimit limit =>
    let limit := min limit maxConnectionsPerHost
    some (if state.limit = limit then state
      else { state with limit, clears := state.clears + 1 })
  | .clear =>
    if 0 < state.clears then some { state with slots := [], clears := state.clears - 1 } else none
  | .call none => some state
  | .call (some host) =>
    some (if state.limit = 0 then state
      else { state with calls := state.calls ++ [⟨host, .limited state.limit⟩] })
  | .enter index | .tryAcquire index | .wake index | .giveUp index | .release index
  | .drop index => (state.calls[index]?).bind fun call => state.act index call event

/-- The permits of a host that are outstanding. -/
def outstanding (host : Host) : Nat :=
  state.calls.countP fun call => call.host = host ∧ call.stage.isHolding

end HostLimits

/-- The policy from its creation on. -/
def hostLimitMachine (Host : Type u) [DecidableEq Host] (limit : Nat) :
    Machine (HostLimits Host) (HostLimitEvent Host) where
  initial state := state = .new limit
  step := HostLimits.step

/-! ## What the table knows about the calls -/

namespace HostLimits

variable {Host : Type u} {state : HostLimits Host} {limit index : Nat}
  {call call' : AcquireCall Host} {slot : Host × SemaphoreId}

/-- The calls that hold a permit of `semaphore`. -/
def holders (state : HostLimits Host) (semaphore : SemaphoreId) : Nat :=
  state.calls.countP (·.stage = .holding semaphore)

/-- As long as nobody changes the limit: whoever refers to a semaphore finds it in the table under
its own host, and what a semaphore has handed out and what it has left is the limit. -/
structure Sound (bound : Nat) (state : HostLimits Host) : Prop where
  limit : state.limit = bound
  clears : state.clears = 0
  hosts : (state.slots.map Prod.fst).Nodup
  semaphores : (state.slots.map Prod.snd).Nodup
  created : ∀ slot ∈ state.slots, slot.2 < state.created
  read : ∀ call ∈ state.calls, ∀ read, call.stage = .limited read → read = bound
  entry : ∀ call ∈ state.calls, ∀ semaphore, call.stage.semaphore? = some semaphore →
    (call.host, semaphore) ∈ state.slots
  balance : ∀ slot ∈ state.slots, state.permits slot.2 + state.holders slot.2 = bound

theorem sound_new (limit : Nat) :
    (HostLimits.new limit : HostLimits Host).Sound (min limit maxConnectionsPerHost) where
  limit := rfl
  clears := rfl
  hosts := List.nodup_nil
  semaphores := List.nodup_nil
  created := List.forall_mem_nil _
  read := List.forall_mem_nil _
  entry := List.forall_mem_nil _
  balance := List.forall_mem_nil _

/-- The entry of a host is the only one with its semaphore. -/
theorem Sound.eq_of_host (h : state.Sound limit) (hslot : slot ∈ state.slots)
    (hslot' : slot' ∈ state.slots) (hhost : slot.1 = slot'.1) : slot = slot' :=
  List.inj_on_of_nodup_map h.hosts hslot hslot' hhost

/-! ### A sweep -/

/-- A call's reference keeps its entry in the table: the table's own makes two. -/
theorem Sound.strongCount (h : state.Sound limit) (hcall : call ∈ state.calls)
    (hrefers : call.stage.semaphore? = some semaphore) : 1 < state.strongCount semaphore := by
  have htable : 0 < state.slots.countP (·.2 = semaphore) :=
    List.countP_pos_iff.mpr
      ⟨(call.host, semaphore), h.entry call hcall semaphore hrefers, decide_eq_true rfl⟩
  have hcalls : 0 < state.calls.countP (·.stage.semaphore? = some semaphore) :=
    List.countP_pos_iff.mpr ⟨call, hcall, decide_eq_true hrefers⟩
  unfold HostLimits.strongCount
  omega

theorem Sound.swept (h : state.Sound limit) : state.swept.Sound limit := by
  unfold HostLimits.swept
  split
  · exact {
      limit := h.limit
      clears := h.clears
      hosts := h.hosts.sublist (List.filter_sublist.map _)
      semaphores := h.semaphores.sublist (List.filter_sublist.map _)
      created := fun slot hslot => h.created slot (List.mem_filter.mp hslot).1
      read := h.read
      entry := fun call hcall semaphore hrefers =>
        List.mem_filter.mpr ⟨h.entry call hcall semaphore hrefers,
          decide_eq_true (h.strongCount hcall hrefers)⟩
      balance := fun slot hslot => h.balance slot (List.mem_filter.mp hslot).1 }
  · exact h

theorem calls_swept (state : HostLimits Host) : state.swept.calls = state.calls := by
  unfold HostLimits.swept
  split <;> rfl

/-! ### An entry made anew -/

section
variable [DecidableEq Host]

theorem calls_entry (state : HostLimits Host) (host : Host) (read : Nat) :
    (state.entry host read).1.calls = state.calls := by
  unfold HostLimits.entry
  split <;> rfl

omit [DecidableEq Host] in
/-- Nobody holds a permit of a semaphore that is yet to be created. -/
theorem Sound.holders_created (h : state.Sound limit) : state.holders state.created = 0 := by
  rw [holders, List.countP_eq_zero]
  intro call hcall hholds
  have hstage := of_decide_eq_true hholds
  have hslot := h.entry call hcall state.created (by rw [hstage]; rfl)
  exact Nat.lt_irrefl _ (h.created _ hslot)

theorem Sound.made (h : state.Sound limit) (host : Host) :
    (state.entry host limit).1.Sound limit ∧
      (host, (state.entry host limit).2) ∈ (state.entry host limit).1.slots := by
  unfold HostLimits.entry
  split
  · next slot hslot =>
    have hhost : slot.1 = host := by simpa using List.find?_some hslot
    exact ⟨h, hhost ▸ List.mem_of_find?_eq_some hslot⟩
  · next hnone =>
    have hnew : ∀ slot ∈ state.slots, slot.1 ≠ host := by simpa using hnone
    refine ⟨?_, List.mem_append_right _ (List.mem_singleton_self _)⟩
    exact {
      limit := h.limit
      clears := h.clears
      hosts := by
        rw [List.map_append, List.nodup_append]
        refine ⟨h.hosts, List.nodup_singleton _, fun other hother host' hhost' => ?_⟩
        obtain ⟨slot, hslot, rfl⟩ := List.mem_map.mp hother
        obtain rfl := List.mem_singleton.mp hhost'
        exact hnew slot hslot
      semaphores := by
        rw [List.map_append, List.nodup_append]
        refine ⟨h.semaphores, List.nodup_singleton _, fun other hother semaphore hsemaphore => ?_⟩
        obtain ⟨slot, hslot, rfl⟩ := List.mem_map.mp hother
        obtain rfl := List.mem_singleton.mp hsemaphore
        exact Nat.ne_of_lt (h.created slot hslot)
      created := fun slot hslot => by
        rcases List.mem_append.mp hslot with hslot | hslot
        · exact Nat.lt_succ_of_lt (h.created slot hslot)
        · obtain rfl := List.mem_singleton.mp hslot
          exact Nat.lt_succ_self _
      read := h.read
      entry := fun call hcall semaphore hrefers =>
        List.mem_append_left _ (h.entry call hcall semaphore hrefers)
      balance := fun slot hslot => by
        rcases List.mem_append.mp hslot with hslot | hslot
        · have hne : slot.2 ≠ state.created := Nat.ne_of_lt (h.created slot hslot)
          simp only [if_neg hne]
          exact h.balance slot hslot
        · obtain rfl := List.mem_singleton.mp hslot
          simp only [if_true]
          exact congrArg (limit + ·) h.holders_created }

end

/-! ### One call -/

/-- A call goes on: it still refers to its host's entry, if to any, and the permits change by what
it takes or gives back. -/
theorem Sound.move (h : state.Sound limit) (hcall : state.calls[index]? = some call)
    {stage : AcquireStage} (permits : SemaphoreId → Nat)
    (hread : ∀ read, stage ≠ .limited read)
    (hentry : ∀ semaphore, stage.semaphore? = some semaphore → (call.host, semaphore) ∈ state.slots)
    (hpermits : ∀ semaphore, permits semaphore + (if stage = .holding semaphore then 1 else 0) =
      state.permits semaphore + if call.stage = .holding semaphore then 1 else 0) :
    ({ state with permits, calls := state.calls.set index { call with stage } }).Sound limit where
  limit := h.limit
  clears := h.clears
  hosts := h.hosts
  semaphores := h.semaphores
  created := h.created
  read other hother read hstage := by
    rcases List.mem_or_eq_of_mem_set hother with hother | rfl
    · exact h.read other hother read hstage
    · exact absurd hstage (hread read)
  entry other hother semaphore hrefers := by
    rcases List.mem_or_eq_of_mem_set hother with hother | rfl
    · exact h.entry other hother semaphore hrefers
    · exact hentry semaphore hrefers
  balance slot hslot := by
    have hbalance := h.balance slot hslot
    have hcount := Counting.countP_set_add hcall (·.stage = .holding slot.2) { call with stage }
    have hchange := hpermits slot.2
    simp only [decide_eq_true_eq] at hcount
    unfold holders at hbalance ⊢
    dsimp only at hcount ⊢
    omega

theorem permits_take (state : HostLimits Host) (semaphore other : SemaphoreId) :
    (state.take semaphore).permits other =
      if other = semaphore then state.permits other - 1 else state.permits other := rfl

theorem permits_addPermit (state : HostLimits Host) (semaphore other : SemaphoreId) :
    (state.addPermit semaphore).permits other =
      if other = semaphore then state.permits other + 1 else state.permits other := rfl

/-- A call takes a free permit of the semaphore it refers to. -/
theorem Sound.taken (h : state.Sound limit) (hcall : state.calls[index]? = some call)
    (hrefers : call.stage.semaphore? = some semaphore) (hfree : 0 < state.permits semaphore)
    (hholds : ∀ other, call.stage ≠ .holding other) :
    ((state.take semaphore).setStage index call (.holding semaphore)).Sound limit := by
  have hslot := h.entry call (List.mem_of_getElem? hcall) semaphore hrefers
  refine h.move hcall _ (by simp) (fun other hother => ?_) (fun other => ?_)
  · obtain rfl := Option.some.inj hother
    exact hslot
  · rw [if_neg (hholds other), permits_take]
    by_cases heq : other = semaphore
    · subst heq
      simp only [if_true]
      omega
    · simp [heq, Ne.symm heq]

/-- A call gives its permit back. -/
theorem Sound.released (h : state.Sound limit) (hcall : state.calls[index]? = some call)
    (hstage : call.stage = .holding semaphore) :
    ((state.addPermit semaphore).setStage index call (.dropping semaphore)).Sound limit := by
  have hslot := h.entry call (List.mem_of_getElem? hcall) semaphore (by rw [hstage]; rfl)
  refine h.move hcall _ (by simp) (fun other hother => ?_) (fun other => ?_)
  · obtain rfl := Option.some.inj hother
    exact hslot
  · rw [hstage, permits_addPermit]
    by_cases heq : other = semaphore
    · simp [heq]
    · simp [heq, Ne.symm heq]

variable [DecidableEq Host]

theorem Sound.act (h : state.Sound limit) (hcall : state.calls[index]? = some call)
    (hact : state.act index call event = some next) : next.Sound limit := by
  have hmem := List.mem_of_getElem? hcall
  unfold HostLimits.act at hact
  split at hact
  · next read hstage =>
    obtain rfl := h.read call hmem read hstage
    obtain rfl := Option.some.inj hact
    obtain ⟨hmade, hentry⟩ := h.swept.made call.host
    refine hmade.move ?_ _ (by simp) ?_ fun other => by simp [hstage]
    · rw [calls_entry, calls_swept]
      exact hcall
    · intro semaphore hrefers
      obtain rfl := Option.some.inj hrefers
      exact hentry
  · next semaphore hstage =>
    split at hact
    · next hfree =>
      obtain rfl := Option.some.inj hact
      exact h.taken hcall (by rw [hstage]; rfl) hfree (by simp [hstage])
    · obtain rfl := Option.some.inj hact
      refine h.move hcall _ (by simp) (fun other hrefers => ?_) (by simp [hstage])
      obtain rfl := Option.some.inj hrefers
      exact h.entry call hmem semaphore (by rw [hstage]; rfl)
  · next semaphore hstage =>
    split at hact
    · next hfree =>
      obtain rfl := Option.some.inj hact
      exact h.taken hcall (by rw [hstage]; rfl) hfree (by simp [hstage])
    · cases hact
  · next semaphore hstage =>
    obtain rfl := Option.some.inj hact
    exact h.move hcall _ (by simp) (by simp [AcquireStage.semaphore?]) (by simp [hstage])
  · next semaphore hstage =>
    obtain rfl := Option.some.inj hact
    exact h.released hcall hstage
  · next semaphore hstage =>
    obtain rfl := Option.some.inj hact
    exact h.move hcall _ (by simp) (by simp [AcquireStage.semaphore?]) (by simp [hstage])
  · cases hact

/-! ## Every run with one limit -/

/-- Nobody changes the limit. -/
def Unchanged (state : HostLimits Host) : HostLimitEvent Host → Prop
  | .setLimit limit => min limit maxConnectionsPerHost = state.limit
  | _ => True

theorem Sound.step (h : state.Sound limit) (hunchanged : state.Unchanged event)
    (hstep : state.step event = some next) : next.Sound limit := by
  cases event with
  | setLimit changed =>
    obtain rfl := Option.some.inj hstep
    rw [if_pos hunchanged.symm]
    exact h
  | clear =>
    rw [HostLimits.step, h.clears] at hstep
    cases hstep
  | call host =>
    cases host with
    | none =>
      obtain rfl := Option.some.inj hstep
      exact h
    | some host =>
      obtain rfl := Option.some.inj hstep
      split
      · exact h
      · exact {
          limit := h.limit
          clears := h.clears
          hosts := h.hosts
          semaphores := h.semaphores
          created := h.created
          read := fun call hcall read hstage => by
            rcases List.mem_append.mp hcall with hcall | hcall
            · exact h.read call hcall read hstage
            · obtain rfl := List.mem_singleton.mp hcall
              exact (AcquireStage.limited.inj hstage).symm.trans h.limit
          entry := fun call hcall semaphore hrefers => by
            rcases List.mem_append.mp hcall with hcall | hcall
            · exact h.entry call hcall semaphore hrefers
            · obtain rfl := List.mem_singleton.mp hcall
              cases hrefers
          balance := fun slot hslot => by
            have hbalance := h.balance slot hslot
            unfold holders at hbalance ⊢
            rw [List.countP_append]
            exact hbalance }
  | enter index | tryAcquire index | wake index | giveUp index | release index | drop index =>
    obtain ⟨call, hcall, hact⟩ := Option.bind_eq_some_iff.mp hstep
    exact h.act hcall hact

/-- A host's permits all come from the semaphore in the table. -/
theorem Sound.outstanding_le (h : state.Sound limit) (host : Host) :
    state.outstanding host ≤ limit := by
  by_cases hslot : ∃ slot ∈ state.slots, slot.1 = host
  · obtain ⟨slot, hslot, rfl⟩ := hslot
    have hle : state.outstanding slot.1 ≤ state.holders slot.2 := by
      apply List.countP_mono_left
      intro call hcall hout
      obtain ⟨hhost, hholds⟩ := of_decide_eq_true hout
      cases hstage : call.stage with
      | holding semaphore =>
        have hentry := h.entry call hcall semaphore (by rw [hstage]; rfl)
        have hsame := h.eq_of_host hentry hslot hhost
        exact decide_eq_true (congrArg AcquireStage.holding (congrArg Prod.snd hsame))
      | limited | found | waiting | dropping | done =>
        rw [hstage] at hholds
        cases hholds
    have hbalance := h.balance slot hslot
    omega
  · have hnone : state.outstanding host = 0 := by
      rw [outstanding, List.countP_eq_zero]
      intro call hcall hout
      obtain ⟨rfl, hholds⟩ := of_decide_eq_true hout
      cases hstage : call.stage with
      | holding semaphore =>
        exact hslot ⟨_, h.entry call hcall semaphore (by rw [hstage]; rfl), rfl⟩
      | limited | found | waiting | dropping | done =>
        rw [hstage] at hholds
        cases hholds
    omega

/-- A host never sees more connections than the limit, whatever the order of calls, releases and
sweeps, and whoever refers to a semaphore still finds it in the table. -/
theorem outstanding_within_limit {limit : Nat} {state : HostLimits Host}
    (h : (hostLimitMachine Host limit).Reaches Unchanged state) (host : Host) :
    state.limit = min limit maxConnectionsPerHost ∧ state.outstanding host ≤ state.limit := by
  have hsound : state.Sound (min limit maxConnectionsPerHost) := by
    apply h.invariant
    · rintro state rfl
      exact sound_new limit
    · intro state event next hsound hunchanged hstep
      exact hsound.step hunchanged hstep
  exact ⟨hsound.limit, hsound.limit ▸ hsound.outstanding_le host⟩

/-- Two calls hold the permits of one host, the third waits; another host's call does not. -/
theorem outstanding_within_limit_two :
    let events : List (HostLimitEvent String) := [
      .call (some "cdn"), .call (some "cdn"), .enter 0, .call (some "cdn"), .enter 2, .enter 1,
      .tryAcquire 1, .tryAcquire 2, .tryAcquire 0, .call (some "mirror"), .enter 3, .tryAcquire 3]
    ∃ state, (hostLimitMachine String 2).run (.new 2) events = some state ∧
      state.outstanding "cdn" = 2 ∧ state.outstanding "cdn" ≤ state.limit := by
  intro events
  obtain ⟨state, hrun, htwo⟩ : ∃ state, (hostLimitMachine String 2).run (.new 2) events =
      some state ∧ state.outstanding "cdn" = 2 := ⟨_, rfl, rfl⟩
  have hunchanged : ∀ event ∈ events, ∀ state : HostLimits String, state.Unchanged event := by
    simp [events, Unchanged]
  have hreached : (hostLimitMachine String 2).Reaches Unchanged state :=
    .within (.initial rfl) (.of_forall hunchanged _) hrun
  exact ⟨state, hrun, htwo, (outstanding_within_limit hreached "cdn").2⟩

end HostLimits
end RDownloader
