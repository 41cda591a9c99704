import Families.Failure
import Mathlib

/-!
# How computations end

A computation in steps succeeds exactly when each of its steps does.  Computations on a state are
a lawful monad, and each of their building blocks is described by the outcome that it has.
-/

namespace Families

variable {α β : Type} {list : List α} {value? : Option α} {step : β → α → Except Halt β}

/-- Two steps succeed exactly when the first does and then the second on its answer. -/
theorem bind_eq_ok_iff {ε : Type} {first : Except ε α} {next : α → Except ε β} {result : β} :
    first >>= next = .ok result ↔ ∃ value, first = .ok value ∧ next value = .ok result := by
  cases first <;> simp [bind, Except.bind]

theorem pure_eq_ok_iff {ε : Type} {value result : α} :
    (pure value : Except ε α) = .ok result ↔ value = result :=
  ⟨Except.ok.inj, congrArg Except.ok⟩

/-- A result that is absent only for words stands for a success exactly when it is there. -/
@[simp]
theorem checked_eq_ok_iff {value : α} : checked value? = .ok value ↔ value? = some value := by
  cases value? <;> simp [checked]

/-- A result that is absent stands for a number that left the range of words. -/
theorem checked_eq_error {reason : Halt} (failed : checked value? = .error reason) :
    reason = .overflow := by
  cases value? with
  | none => simpa [checked] using failed.symm
  | some value => simp [checked] at failed

/-- What every step of a fold keeps holds of its result. -/
theorem holds_of_foldlM {invariant : β → Prop} {start last : β} (holds : invariant start)
    (kept : ∀ element ∈ list, ∀ {value next}, invariant value →
      step value element = .ok next → invariant next)
    (succeeded : list.foldlM step start = .ok last) : invariant last := by
  induction list generalizing start with
  | nil => exact Except.ok.inj succeeded ▸ holds
  | cons first rest ih =>
    rw [List.foldlM_cons, bind_eq_ok_iff] at succeeded
    obtain ⟨next, stepped, restSucceeded⟩ := succeeded
    rw [List.forall_mem_cons] at kept
    exact ih (kept.1 holds stepped) kept.2 restSucceeded

/-- A fold succeeds if every step does. -/
theorem exists_foldlM_eq_ok
    (succeeds : ∀ element ∈ list, ∀ value, ∃ next, step value element = .ok next) (start : β) :
    ∃ last, list.foldlM step start = .ok last := by
  induction list generalizing start with
  | nil => exact ⟨start, rfl⟩
  | cons first rest ih =>
    rw [List.forall_mem_cons] at succeeds
    obtain ⟨next, stepped⟩ := succeeds.1 start
    obtain ⟨last, folded⟩ := ih succeeds.2 next
    exact ⟨last, by rw [List.foldlM_cons, stepped]; exact folded⟩

/-! ## Computations without faults -/

/-- The computation does not stop at a broken invariant. -/
def Faultless {α : Type} (computation : Except Halt α) : Prop :=
  ∀ fault, computation ≠ .error (.fault fault)

section Faultless

variable {α β : Type}

theorem faultless_pure (value : α) : Faultless (pure value) := by
  intro fault
  simp [pure, Except.pure]

theorem faultless_exhausted : Faultless (.error .exhausted : Except Halt α) := by
  intro fault
  simp

theorem faultless_checked (value? : Option α) : Faultless (checked value?) := by
  intro fault failed
  exact absurd (checked_eq_error failed) (by simp)

theorem Faultless.bind {first : Except Halt α} {next : α → Except Halt β}
    (firstFaultless : Faultless first)
    (nextFaultless : ∀ value, first = .ok value → Faultless (next value)) :
    Faultless (first >>= next) := by
  cases first with
  | error reason =>
    intro fault failed
    exact firstFaultless fault (by simpa [Bind.bind, Except.bind] using failed)
  | ok value => exact nextFaultless value rfl

theorem faultless_mapM {action : α → Except Halt β} {list : List α}
    (faultless : ∀ element ∈ list, Faultless (action element)) : Faultless (list.mapM action) := by
  induction list with
  | nil => exact faultless_pure []
  | cons first rest ih =>
    rw [List.mapM_cons]
    refine (faultless first (by simp)).bind fun value _ => ?_
    refine (ih fun element present => faultless element (by simp [present])).bind
      fun values _ => ?_
    exact faultless_pure (value :: values)

theorem faultless_foldlM {action : β → α → Except Halt β} {list : List α}
    (faultless : ∀ value, ∀ element ∈ list, Faultless (action value element)) (start : β) :
    Faultless (list.foldlM action start) := by
  induction list generalizing start with
  | nil => exact faultless_pure start
  | cons first rest ih =>
    rw [List.foldlM_cons]
    refine (faultless start first (by simp)).bind fun value _ => ?_
    exact ih (fun value element present => faultless value element (by simp [present]))
      value

theorem faultless_filterM {test : α → Except Halt Bool} {list : List α}
    (faultless : ∀ element, Faultless (test element)) : Faultless (list.filterM test) := by
  have collected : ∀ (list found : List α), Faultless (list.filterAuxM test found) := by
    intro list found
    induction list generalizing found with
    | nil => exact faultless_pure found
    | cons first rest ih =>
      exact (faultless first).bind fun _ _ => ih _
  exact (collected list []).bind fun found _ => faultless_pure found.reverse

end Faultless

/-! ## Computations on a state -/

namespace Attempt

variable {ε σ α β : Type}
variable {first : Attempt ε σ α} {next : α → Attempt ε σ β}

@[simp]
theorem run_pure (value : α) (state : σ) :
    (pure value : Attempt ε σ α).run state = ⟨.ok value, state, []⟩ := rfl

@[simp]
theorem run_bind (first : Attempt ε σ α) (next : α → Attempt ε σ β) (state : σ) :
    (first >>= next).run state =
      match (first.run state).result with
      | .ok value =>
        { (next value).run (first.run state).state with
          passed := (first.run state).passed ++
            ((next value).run (first.run state).state).passed }
      | .error failure => ⟨.error failure, (first.run state).state, (first.run state).passed⟩ := rfl

theorem run_get_bind (next : σ → Attempt ε σ α) (state : σ) :
    (MonadState.get >>= next).run state = (next state).run state := rfl

theorem run_bind_of_ok {state : σ} {value : α} (answered : (first.run state).result = .ok value) :
    (first >>= next).run state =
      { (next value).run (first.run state).state with
        passed := (first.run state).passed ++
          ((next value).run (first.run state).state).passed } := by
  rw [run_bind, answered]

theorem run_bind_of_error {state : σ} {failure : Failure ε}
    (failed : (first.run state).result = .error failure) :
    (first >>= next).run state =
      ⟨.error failure, (first.run state).state, (first.run state).passed⟩ := by
  rw [run_bind, failed]

/-- Computations are the same when all their outcomes are. -/
@[ext]
theorem ext {left right : Attempt ε σ α} (outcomes : ∀ state, left.run state = right.run state) :
    left = right := by
  cases left
  cases right
  simp only [mk.injEq]
  funext state
  exact outcomes state

instance : LawfulMonad (Attempt ε σ) :=
  LawfulMonad.mk' (Attempt ε σ)
    (by
      intro α first
      apply ext
      intro state
      change (first >>= pure).run state = first.run state
      rw [run_bind]
      obtain ⟨result, after, passed⟩ := first.run state
      cases result <;> simp)
    (by
      intro α β value next
      apply ext
      intro state
      simp)
    (by
      intro α β γ first next last
      apply ext
      intro state
      simp only [run_bind]
      obtain ⟨result, after, passed⟩ := first.run state
      cases result with
      | error failure => simp
      | ok value =>
        simp only
        obtain ⟨result, after, passed⟩ := (next value).run after
        cases result <;> simp)

end Attempt

end Families
