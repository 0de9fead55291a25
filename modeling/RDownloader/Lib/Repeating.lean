import RDownloader.Lib.Refusing

/-!
# Programs that two runs go through alike

`Repeats R program` says that a second run, beside a first one by `R`, answers what the first one
answers and is beside it afterwards. What the first one refuses is left open: the second may have
been given more.
-/

namespace Refusing

variable {σ ε α β : Type}

theorem exec_bind (program : Refusing σ ε α) (rest : α → Refusing σ ε β) (state : σ) :
    (program >>= rest).exec state = match program.exec state with
      | (.ok answer, next) => (rest answer).exec next
      | (.error error, next) => (.error error, next) := by
  have heq : (program >>= rest).exec state =
      let (answer, next) := program.exec state
      exec (ExceptT.bindCont rest answer : StateM σ (Except ε β)) next := rfl
  rw [heq]
  rcases program.exec state with ⟨answer | answer, next⟩ <;> rfl

theorem exec_bind_ok {program : Refusing σ ε α} {rest : α → Refusing σ ε β} {state next : σ}
    {answer : α} (h : program.exec state = (.ok answer, next)) :
    (program >>= rest).exec state = (rest answer).exec next := by
  rw [exec_bind, h]

/-- An answer of two programs in turn is one of each. -/
theorem exec_bind_eq_ok {program : Refusing σ ε α} {rest : α → Refusing σ ε β} {state last : σ}
    {answer : β} (h : (program >>= rest).exec state = (.ok answer, last)) :
    ∃ middle next, program.exec state = (.ok middle, next) ∧
      (rest middle).exec next = (.ok answer, last) := by
  rw [exec_bind] at h
  rcases hfirst : program.exec state with ⟨error | middle, next⟩
  · rw [hfirst] at h
    cases h
  · rw [hfirst] at h
    exact ⟨middle, next, rfl, h⟩

def Repeats (R : σ → σ → Prop) (program : Refusing σ ε α) : Prop :=
  ∀ run other, R run other → ∀ answer next, program.exec run = (.ok answer, next) →
    ∃ next', program.exec other = (.ok answer, next') ∧ R next next'

namespace Repeats

variable {R : σ → σ → Prop} {program : Refusing σ ε α}

theorem pure (answer : α) : Repeats R (pure answer : Refusing σ ε α) := by
  rintro run other h _ _ ⟨⟩
  exact ⟨other, rfl, h⟩

theorem throw (error : ε) : Repeats R (throw error : Refusing σ ε α) := by
  rintro run other h _ _ ⟨⟩

theorem bind {rest : α → Refusing σ ε β} (h : Repeats R program)
    (hrest : ∀ answer, Repeats R (rest answer)) : Repeats R (program >>= rest) := by
  intro run other hbeside answer last hlast
  obtain ⟨middle, next, hmiddle, hlast⟩ := exec_bind_eq_ok hlast
  obtain ⟨next', hmiddle', hbeside⟩ := h run other hbeside middle next hmiddle
  rw [exec_bind_ok hmiddle']
  exact hrest middle next next' hbeside answer last hlast

/-- Reading the state, when the rest does not tell the two states apart. -/
theorem read {rest : σ → Refusing σ ε α} (hsame : ∀ run other, R run other → rest other = rest run)
    (h : ∀ run, Repeats R (rest run)) : Repeats R (MonadState.get >>= rest) := by
  intro run other hbeside answer last hlast
  have hlast : (rest run).exec run = (.ok answer, last) := hlast
  obtain ⟨next', hnext', hbeside'⟩ := h run run other hbeside answer last hlast
  refine ⟨next', ?_, hbeside'⟩
  change (rest other).exec other = _
  rw [hsame run other hbeside, hnext']

/-- A refusal that the second run meets only where the first one meets it. -/
theorem refuse {refused : σ → Prop} [DecidablePred refused] {error : ε} {rest : σ → Refusing σ ε α}
    (hrefused : ∀ run other, R run other → refused other → refused run)
    (h : Repeats R (MonadState.get >>= rest)) :
    Repeats R (MonadState.get >>= fun state =>
      if refused state then MonadExcept.throw error else rest state) := by
  intro run other hbeside answer last hlast
  have hlast : exec (if refused run then MonadExcept.throw error else rest run) run =
      (.ok answer, last) := hlast
  split at hlast
  next => cases hlast
  next hno =>
    obtain ⟨next', hnext', hbeside'⟩ := h run other hbeside answer last hlast
    refine ⟨next', ?_, hbeside'⟩
    change exec (if refused other then MonadExcept.throw error else rest other) other = _
    rw [if_neg fun hrefuse => hno (hrefused run other hbeside hrefuse)]
    exact hnext'

theorem modify {f : σ → σ} (h : ∀ run other, R run other → R (f run) (f other)) :
    Repeats R (modify f : Refusing σ ε PUnit) := by
  rintro run other hbeside _ _ ⟨⟩
  exact ⟨f other, rfl, h run other hbeside⟩

theorem ofExcept (answer : Except ε α) :
    Repeats R (MonadExcept.ofExcept answer : Refusing σ ε α) := by
  cases answer with
  | error error => exact throw error
  | ok answer => exact pure answer

end Repeats

end Refusing
