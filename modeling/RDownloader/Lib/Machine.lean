/-!
# Machines that take one event at a time

A step is a partial function of the state and an event, so a machine can be run on a list of
events. Properties of whole runs come from properties of single steps: an invariant by
`Reaches.invariant`, a property that holds exactly as long as every step meets a condition by
`always_iff`, and a bound on the steps of a run by `countP_add_le`.
-/

structure Machine (σ : Type u) (ε : Type v) where
  initial : σ → Prop
  step : σ → ε → Option σ

namespace Machine

variable {σ : Type u} {ε : Type v} (machine : Machine σ ε)

/-- The state after the events, when each of them can happen in turn. -/
def run : σ → List ε → Option σ
  | state, [] => some state
  | state, event :: events => (machine.step state event).bind fun state => run state events

/-- The states reached by steps that `allowed` lets happen. -/
inductive Reaches (allowed : σ → ε → Prop) : σ → Prop
  | initial (h : machine.initial state) : Reaches allowed state
  | step (h : Reaches allowed state) (hallowed : allowed state event)
      (hstep : machine.step state event = some next) : Reaches allowed next

/-- Whatever can happen may happen. -/
def anything : σ → ε → Prop := fun _ _ => True

/-- `P` holds in every state a run passes. -/
def Always (P : σ → Prop) : σ → List ε → Prop
  | state, [] => P state
  | state, event :: events => P state ∧
      ∀ next, machine.step state event = some next → Always P next events

/-- Every step of a run is one `allowed` lets happen. -/
def Within (allowed : σ → ε → Prop) : σ → List ε → Prop
  | _, [] => True
  | state, event :: events => ∀ next, machine.step state event = some next →
      allowed state event ∧ Within allowed next events

/-- Whether a run is one of allowed steps can be found out by taking them. -/
instance decidableWithin {machine : Machine σ ε} {allowed : σ → ε → Prop}
    [∀ state event, Decidable (allowed state event)] (state : σ) (events : List ε) :
    Decidable (machine.Within allowed state events) :=
  match events with
  | [] => .isTrue trivial
  | event :: events =>
    match hstep : machine.step state event with
    | none => .isTrue fun _ hnext => nomatch hstep.symm.trans hnext
    | some next =>
      have := @decidableWithin machine allowed _ next events
      decidable_of_iff (allowed state event ∧ machine.Within allowed next events)
        ⟨fun h _ hnext => Option.some.inj (hstep.symm.trans hnext) ▸ h, fun h => h next hstep⟩

/-- Each step of a run leads from a state to one that `R` relates it to. -/
def Along (R : σ → σ → Prop) : σ → List ε → Prop
  | _, [] => True
  | state, event :: events => ∀ next, machine.step state event = some next →
      R state next ∧ Along R next events

/-- Each step of a run is one that `R` holds of, with its event. -/
def Steps (R : σ → ε → σ → Prop) : σ → List ε → Prop
  | _, [] => True
  | state, event :: events => ∀ next, machine.step state event = some next →
      R state event next ∧ Steps R next events

variable {machine} {allowed : σ → ε → Prop}

/-- What the initial states have and the allowed steps keep, the reached states have. -/
theorem Reaches.invariant (h : machine.Reaches allowed state) (Inv : σ → Prop)
    (hinitial : ∀ state, machine.initial state → Inv state)
    (hstep : ∀ state event next, Inv state → allowed state event →
      machine.step state event = some next → Inv next) : Inv state := by
  induction h with
  | initial h => exact hinitial _ h
  | step _ hallowed hnext ih => exact hstep _ _ _ ih hallowed hnext

theorem Reaches.mono {wider : σ → ε → Prop} (h : machine.Reaches allowed state)
    (hle : ∀ state event, allowed state event → wider state event) :
    machine.Reaches wider state := by
  induction h with
  | initial h => exact .initial h
  | step _ hallowed hnext ih => exact .step ih (hle _ _ hallowed) hnext

theorem Reaches.anything (h : machine.Reaches allowed state) :
    machine.Reaches Machine.anything state :=
  h.mono fun _ _ _ => trivial

theorem Within.cons {event : ε} {events : List ε} (hallowed : allowed state event)
    (hstep : machine.step state event = some next) (hrest : machine.Within allowed next events) :
    machine.Within allowed state (event :: events) := by
  intro next' hnext'
  obtain rfl := Option.some.inj (hstep.symm.trans hnext')
  exact ⟨hallowed, hrest⟩

/-- A run of allowed steps stays with the states they reach. -/
theorem Reaches.within {events : List ε} (h : machine.Reaches allowed state)
    (hwithin : machine.Within allowed state events)
    (hrun : machine.run state events = some last) : machine.Reaches allowed last := by
  induction events generalizing state with
  | nil =>
    obtain rfl := Option.some.inj hrun
    exact h
  | cons event events ih =>
    obtain ⟨next, hnext, hrest⟩ := Option.bind_eq_some_iff.mp hrun
    obtain ⟨hallowed, hwithin⟩ := hwithin next hnext
    exact ih (.step h hallowed hnext) hwithin hrest

theorem Within.of_forall {events : List ε} (h : ∀ event ∈ events, ∀ state, allowed state event)
    (state : σ) : machine.Within allowed state events := by
  induction events generalizing state with
  | nil => trivial
  | cons event events ih =>
    intro next _
    exact ⟨h event (List.mem_cons_self ..) state,
      ih (fun event hmem => h event (List.mem_cons_of_mem _ hmem)) next⟩

theorem Within.anything (state : σ) (events : List ε) :
    machine.Within Machine.anything state events :=
  .of_forall (fun _ _ _ => trivial) state

theorem Reaches.run {events : List ε} (h : machine.Reaches Machine.anything state)
    (hrun : machine.run state events = some last) : machine.Reaches Machine.anything last :=
  h.within (.anything state events) hrun

theorem Always.of_run {P : σ → Prop} {events : List ε} (h : machine.Always P state events)
    (hrun : machine.run state events = some last) : P last := by
  induction events generalizing state with
  | nil =>
    obtain rfl := Option.some.inj hrun
    exact h
  | cons event events ih =>
    obtain ⟨next, hnext, hrest⟩ := Option.bind_eq_some_iff.mp hrun
    exact ih (h.2 next hnext) hrest

theorem Steps.of_run {R : σ → ε → σ → Prop} {events : List ε} {event : ε}
    (h : machine.Steps R state (events ++ [event])) (hrun : machine.run state events = some last)
    (hstep : machine.step last event = some next) : R last event next := by
  induction events generalizing state with
  | nil =>
    obtain rfl := Option.some.inj hrun
    exact (h next hstep).1
  | cons first events ih =>
    obtain ⟨middle, hmiddle, hrest⟩ := Option.bind_eq_some_iff.mp hrun
    exact ih (h middle hmiddle).2 hrest

/-- Steps that lower a measure, among others that do not raise it, are no more than it was. -/
theorem countP_add_le {Inv : σ → Prop} {measure : σ → Nat} {counted : ε → Bool}
    {within : ε → Prop}
    (hinv : ∀ state event next, Inv state → machine.step state event = some next → Inv next)
    (hstep : ∀ state event next, Inv state → within event → machine.step state event = some next →
      (if counted event then 1 else 0) + measure next ≤ measure state)
    {state last : σ} {events : List ε} (hstate : Inv state) (hwithin : ∀ event ∈ events, within event)
    (hrun : machine.run state events = some last) :
    events.countP counted + measure last ≤ measure state := by
  induction events generalizing state with
  | nil =>
    obtain rfl := Option.some.inj hrun
    exact Nat.le_of_eq (Nat.zero_add _)
  | cons event events ih =>
    obtain ⟨next, hnext, hrest⟩ := Option.bind_eq_some_iff.mp hrun
    have hfirst := hstep state event next hstate (hwithin event (List.mem_cons_self ..)) hnext
    have hlater := ih (hinv state event next hstate hnext)
      (fun event hmem => hwithin event (List.mem_cons_of_mem _ hmem)) hrest
    rw [List.countP_cons]
    omega

/-- A property that a step from a state with it keeps exactly when the step is allowed holds along
a run exactly when every step of the run is. -/
theorem always_iff {Inv P : σ → Prop}
    (hinv : ∀ state event next, Inv state → machine.step state event = some next → Inv next)
    (hexact : ∀ state event next, Inv state → P state → machine.step state event = some next →
      (P next ↔ allowed state event))
    {state : σ} (hstate : Inv state) (hholds : P state) (events : List ε) :
    machine.Always P state events ↔ machine.Within allowed state events := by
  induction events generalizing state with
  | nil => exact ⟨fun _ => trivial, fun _ => hholds⟩
  | cons event events ih =>
    constructor
    · rintro ⟨-, hrest⟩ next hnext
      have hnextHolds : P next := by
        cases events with
        | nil => exact hrest next hnext
        | cons => exact (hrest next hnext).1
      exact ⟨(hexact state event next hstate hholds hnext).mp hnextHolds,
        (ih (hinv state event next hstate hnext) hnextHolds).mp (hrest next hnext)⟩
    · intro hwithin
      refine ⟨hholds, fun next hnext => ?_⟩
      obtain ⟨hallowed, hrest⟩ := hwithin next hnext
      have hnextHolds := (hexact state event next hstate hholds hnext).mpr hallowed
      exact (ih (hinv state event next hstate hnext) hnextHolds).mpr hrest

/-- A relation that a step from a state with the invariant meets exactly when it is allowed holds
along a run exactly when every step of the run is. -/
theorem along_iff {Inv : σ → Prop} {R : σ → σ → Prop}
    (hinv : ∀ state event next, Inv state → allowed state event →
      machine.step state event = some next → Inv next)
    (hexact : ∀ state event next, Inv state → machine.step state event = some next →
      (R state next ↔ allowed state event))
    {state : σ} (hstate : Inv state) (events : List ε) :
    machine.Along R state events ↔ machine.Within allowed state events := by
  induction events generalizing state with
  | nil => exact .rfl
  | cons event events ih =>
    refine forall_congr' fun next => ?_
    constructor
    · intro h hnext
      obtain ⟨hrelated, hrest⟩ := h hnext
      have hallowed := (hexact state event next hstate hnext).mp hrelated
      exact ⟨hallowed, (ih (hinv state event next hstate hallowed hnext)).mp hrest⟩
    · intro h hnext
      obtain ⟨hallowed, hrest⟩ := h hnext
      exact ⟨(hexact state event next hstate hnext).mpr hallowed,
        (ih (hinv state event next hstate hallowed hnext)).mpr hrest⟩

/-- As `along_iff`, where the relation names the event. -/
theorem steps_iff {Inv : σ → Prop} {R : σ → ε → σ → Prop}
    (hinv : ∀ state event next, Inv state → machine.step state event = some next → Inv next)
    (hexact : ∀ state event next, Inv state → machine.step state event = some next →
      (R state event next ↔ allowed state event))
    {state : σ} (hstate : Inv state) (events : List ε) :
    machine.Steps R state events ↔ machine.Within allowed state events := by
  induction events generalizing state with
  | nil => exact .rfl
  | cons event events ih =>
    refine forall_congr' fun next => forall_congr' fun hnext => ?_
    rw [hexact state event next hstate hnext, ih (hinv state event next hstate hnext)]

end Machine
