/-!
# Programs with a state that may refuse

A program that refuses leaves the state as it was at that point, so what it did up to there stays
on record. `Ensures P program Q R` is the triple for them: from a state with `P` the program answers
with `Q`, or refuses with `R`.
-/

/-- A program over a state. -/
abbrev Refusing (σ ε α : Type) := ExceptT ε (StateM σ) α

namespace Refusing

variable {σ ε α β : Type}

/-- The answer and the state after a program. -/
def exec (program : Refusing σ ε α) (state : σ) : Except ε α × σ := program state

/-- What is true of an answer or a refusal, and of the state with it. -/
def Meets (Q : α → σ → Prop) (R : σ → Prop) : Except ε α × σ → Prop
  | (.ok answer, state) => Q answer state
  | (.error _, state) => R state

def Ensures (P : σ → Prop) (program : Refusing σ ε α) (Q : α → σ → Prop) (R : σ → Prop) : Prop :=
  ∀ state, P state → Meets Q R (program.exec state)

/-- Whatever happens, `P` still holds. -/
abbrev Keeps (P : σ → Prop) (program : Refusing σ ε α) : Prop := Ensures P program (fun _ => P) P

variable {P P' R R' : σ → Prop} {Q Q' : α → σ → Prop} {program : Refusing σ ε α}

theorem Meets.mono {outcome : Except ε α × σ} (h : Meets Q R outcome)
    (hanswer : ∀ answer state, Q answer state → Q' answer state)
    (hrefusal : ∀ state, R state → R' state) : Meets Q' R' outcome := by
  match outcome with
  | (.ok answer, state) => exact hanswer answer state h
  | (.error _, state) => exact hrefusal state h

theorem Ensures.weaken (h : Ensures P program Q R) (hbefore : ∀ state, P' state → P state)
    (hanswer : ∀ answer state, Q answer state → Q' answer state)
    (hrefusal : ∀ state, R state → R' state) : Ensures P' program Q' R' :=
  fun state hstate => (h state (hbefore state hstate)).mono hanswer hrefusal

theorem Ensures.pure {answer : α} (h : ∀ state, P state → Q answer state) :
    Ensures P (pure answer : Refusing σ ε α) Q R := h

theorem Ensures.throw {error : ε} (h : ∀ state, P state → R state) :
    Ensures P (throw error : Refusing σ ε α) Q R := h

theorem Ensures.bind {rest : α → Refusing σ ε β} {S : β → σ → Prop} (h : Ensures P program Q R)
    (hrest : ∀ answer, Ensures (Q answer) (rest answer) S R) :
    Ensures P (program >>= rest) S R := by
  intro state hstate
  have hfirst := h state hstate
  have heq : (program >>= rest).exec state =
      let (answer, next) := program.exec state
      exec (ExceptT.bindCont rest answer : StateM σ (Except ε β)) next := rfl
  rw [heq]
  generalize program.exec state = outcome at hfirst
  rcases outcome with ⟨answer | answer, next⟩
  · exact hfirst
  · exact hrest answer next hfirst

theorem Ensures.get : Ensures P (get : Refusing σ ε σ) (fun read state => read = state ∧ P state) R :=
  fun _ h => ⟨rfl, h⟩

/-- What a program does may be shown from each state on its own. -/
theorem Ensures.ofEach (h : ∀ state, P state → Ensures (· = state) program Q R) :
    Ensures P program Q R :=
  fun state hstate => h state hstate state rfl

theorem Ensures.here {state : σ} (h : Ensures P program Q R) (hstate : P state) :
    Ensures (· = state) program Q R :=
  fun _ heq => heq ▸ h state hstate

/-- Reading the state first. -/
theorem Ensures.read {rest : σ → Refusing σ ε α}
    (h : ∀ read, P read → Ensures (· = read) (rest read) Q R) :
    Ensures P (MonadState.get >>= rest) Q R :=
  fun state hstate => h state hstate state rfl

theorem Ensures.modify {f : σ → σ} {Q : PUnit → σ → Prop} (h : ∀ state, P state → Q ⟨⟩ (f state)) :
    Ensures P (modify f : Refusing σ ε PUnit) Q R := h

/-- An answer that was worked out without the state. -/
theorem Ensures.ofExcept {answer : Except ε α} (h : ∀ state, P state → R state)
    (hok : ∀ value, answer = .ok value → ∀ state, P state → Q value state) :
    Ensures P (MonadExcept.ofExcept answer : Refusing σ ε α) Q R := by
  cases answer with
  | error error => exact .throw h
  | ok value => exact .pure (hok value rfl)

theorem Keeps.forM {f : α → Refusing σ ε PUnit} (h : ∀ item, Keeps P (f item)) (items : List α) :
    Keeps P (items.forM f) := by
  induction items with
  | nil => exact .pure fun _ => id
  | cons item items ih => exact (h item).bind fun _ => ih

end Refusing

/-!
## Programs that answer something, nothing, or fault

`Faulting ε α` is a program that may give up and may fault. `Meets P program` says that it does not
fault, and that what it answers, if it answers anything, is in `P`.
-/

abbrev Faulting (ε α : Type) := OptionT (Except ε) α

namespace Faulting

variable {ε α β : Type} {P : α → Prop} {Q : β → Prop}

def lift (answer : Option α) : Faulting ε α := OptionT.mk (.ok answer)

def fault (error : ε) : Faulting ε α := OptionT.mk (.error error)

@[simp] theorem pure_eq (answer : α) : (pure answer : Faulting ε α) = lift (some answer) := rfl

@[simp] theorem lift_some_bind (answer : α) (rest : α → Faulting ε β) :
    (lift (some answer) >>= rest) = rest answer := rfl

@[simp] theorem lift_none_bind (rest : α → Faulting ε β) :
    (lift none >>= rest : Faulting ε β) = lift none := rfl

def Meets (P : α → Prop) (program : Faulting ε α) : Prop :=
  ∃ answer, program = lift answer ∧ ∀ value ∈ answer, P value

namespace Meets

theorem lift {answer : Option α} (h : ∀ value ∈ answer, P value) :
    Meets P (lift answer : Faulting ε α) := ⟨answer, rfl, h⟩

theorem none : Meets P (Faulting.lift none : Faulting ε α) := lift fun _ h => (nomatch h)

theorem pure {value : α} (h : P value) : Meets P (pure value : Faulting ε α) :=
  lift fun _ hvalue => Option.some.inj hvalue ▸ h

theorem bind {program : Faulting ε α} {rest : α → Faulting ε β} (h : Meets P program)
    (hrest : ∀ value, P value → Meets Q (rest value)) : Meets Q (program >>= rest) := by
  obtain ⟨answer, rfl, hanswer⟩ := h
  cases answer with
  | none => exact none
  | some value => exact hrest value (hanswer value rfl)

theorem mono {program : Faulting ε α} {P' : α → Prop} (h : Meets P program)
    (hle : ∀ value, P value → P' value) : Meets P' program := by
  obtain ⟨answer, heq, hanswer⟩ := h
  exact ⟨answer, heq, fun value hvalue => hle value (hanswer value hvalue)⟩

end Meets

end Faulting
