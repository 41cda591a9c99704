import Families.Proofs.Fuel

/-!
# Steps at the head

Whatever unfolds at the head of a term still does so in later states and after a substitution, and
reduction follows these steps.  So a term and anything on its way to its reduced form are compared
alike.
-/

namespace Families

variable {after before : State} {fuel : Nat} {path : Path} {next result term : Term}

/-! ## Later states -/

/-- Solutions, functions and constructors are still there. -/
structure State.Preserves (before after : State) : Prop extends before.Retains after where
  constructor : ∀ path constructor, before.signature.constructor? path = some constructor →
    after.signature.constructor? path = some constructor

namespace State

theorem Preserves.trans {first second third : State} (earlier : first.Preserves second)
    (later : second.Preserves third) :
    first.Preserves third where
  solution id solution := later.solution id solution ∘ earlier.solution id solution
  body path body := later.body path body ∘ earlier.body path body
  constructor path constructor :=
    later.constructor path constructor ∘ earlier.constructor path constructor

theorem Grows.preserves (grows : before.Grows after) : before.Preserves after where
  toRetains := grows.resolves.retains
  constructor _ _ found := grows.signature ▸ found

/-- What does not unfold later did not before. -/
theorem Preserves.body?_eq_none (preserves : before.Preserves after)
    (rigid : after.signature.body? path = none) : before.signature.body? path = none := by
  by_contra unfolds
  obtain ⟨body, found⟩ := Option.ne_none_iff_exists'.1 unfolds
  cases rigid.symm.trans (preserves.body path body found)

end State

/-- A constructor does not unfold. -/
theorem Signature.body?_of_constructor? {signature : Signature} {constructor : Constructor}
    (found : signature.constructor? path = some constructor) : signature.body? path = none := by
  unfold constructor? at found
  unfold body?
  split at found
  · rename_i declared
    rw [declared]
  · cases found

/-- A datatype does not unfold. -/
theorem Signature.body?_of_datatype {signature : Signature} {entry : Entry} {datatype : Datatype}
    (found : signature.get? path = some entry)
    (isDatatype : entry.definition.kind = .datatype datatype) : signature.body? path = none := by
  obtain ⟨⟨own, ty, kind⟩, phase⟩ := entry
  obtain rfl : kind = _ := isDatatype
  simp [body?, definition?, found]

/-! ## Reduction along steps -/

variable {state : State}

/-- An application unfolds where its function does. -/
theorem Unfolds.unfoldHead?_app {function function' argument : Term} {info : ArgInfo}
    (unfolds : Unfolds state function function') :
    unfoldHead? state (.app function argument info) =
      (unfoldHead? state function).map (Option.map (.app · argument info)) := by
  have applied : ∀ (value : Term) (arguments : List (ArgInfo × Term)),
      value.applyTo (arguments ++ [(info, argument)]) =
        .app (value.applyTo arguments) argument info :=
    fun value arguments => Phrase.applyTo_append value arguments [(info, argument)]
  rcases unfolds.head_cases with ⟨id, arguments, solution, isPlaceholder, solved⟩ |
    ⟨path, arity, body, isConst, found, enough⟩
  · simp only [unfoldHead?, Phrase.head_app, isPlaceholder, solved, Phrase.arguments_app, applied]
    cases checked (solution.substitute? arguments.toList) <;> rfl
  · obtain ⟨_, _, declared⟩ := Signature.definition?_of_body? found
    have enough' : _ ≤ (function.arguments ++ [(info, argument)]).length :=
      enough.trans (by simp)
    simp only [unfoldHead?, Phrase.head_app, isConst, declared, Phrase.arguments_app,
      if_pos enough, if_pos enough', List.take_append_of_le_length enough,
      List.drop_append_of_le_length enough, applied]
    generalize checked _ = value
    cases value <;> rfl

/-- The step that reduction takes is the step that is possible. -/
theorem eq_of_unfoldHead? {next? : Option Term} (unfolds : Unfolds state term next)
    (unfolded : unfoldHead? state term = .ok next?) : next? = some next := by
  induction unfolds generalizing next? with
  | @placeholder id arguments solution solved below =>
    simp only [unfoldHead?, Phrase.head, solved, bind_eq_ok_iff, checked_eq_ok_iff] at unfolded
    obtain ⟨value, substituted, isNext⟩ := unfolded
    rw [← Phrase.eq_replace_of_substitute? substituted]
    exact (Except.ok.inj isNext).symm
  | @function path arity body term found below isConst full =>
    obtain ⟨_, _, declared⟩ := Signature.definition?_of_body? found
    simp only [unfoldHead?, isConst, declared, if_pos full.ge, bind_eq_ok_iff,
      checked_eq_ok_iff] at unfolded
    obtain ⟨value, substituted, isNext⟩ := unfolded
    rw [List.take_of_length_le full.le] at substituted
    rw [List.drop_of_length_le full.le] at isNext
    rw [← Phrase.eq_replace_of_substitute? substituted]
    exact (Except.ok.inj isNext).symm
  | @app function function' argument info unfolds ih =>
    rw [unfolds.unfoldHead?_app] at unfolded
    cases isNext : unfoldHead? state function with
    | error reason => simp [isNext, Except.map] at unfolded
    | ok next =>
      rw [isNext, ih isNext] at unfolded
      exact (Except.ok.inj unfolded).symm

theorem reduce_of_unfolds (unfolds : Unfolds state term next)
    (reduced : reduce state fuel term = .ok result) : reduce state fuel next = .ok result := by
  cases fuel with
  | zero => simp [reduce] at reduced
  | succ fuel =>
    cases term with
    | const | app | placeholder =>
      simp only [reduce, bind_eq_ok_iff] at reduced
      obtain ⟨next?, unfolded, continued⟩ := reduced
      obtain rfl := eq_of_unfoldHead? unfolds unfolded
      exact reduce_of_le (.refl state) continued (Nat.le_succ fuel)
    | var | pi | univ | level => simpa [Phrase.head] using unfolds.head_cases

/-- Any number of steps at the head. -/
abbrev Steps (state : State) : Term → Term → Prop :=
  Relation.ReflTransGen (Unfolds state)

/-- A term reduces to what anything on its way reduces to. -/
theorem reduce_of_steps (steps : Steps state term next)
    (reduced : reduce state fuel term = .ok result) : reduce state fuel next = .ok result := by
  induction steps with
  | refl => exact reduced
  | tail _ unfolds ih => exact reduce_of_unfolds unfolds ih

/-- A term whose head does not unfold is reduced. -/
theorem eq_of_reduce_const (isConst : term.head = .const path)
    (rigid : state.signature.body? path = none) (reduced : reduce state fuel term = .ok result) :
    result = term := by
  have stops : unfoldHead? state term = .ok none :=
    unfoldHead?_eq_none_iff.2 (by grind)
  cases fuel with
  | zero => simp [reduce] at reduced
  | succ fuel =>
    cases term with
    | const | app | placeholder =>
      simp only [reduce, stops, bind_eq_ok_iff] at reduced
      obtain ⟨_, isNone, isResult⟩ := reduced
      obtain rfl := Except.ok.inj isNone
      exact (Except.ok.inj isResult).symm
    | var | pi | univ | level => cases isConst

/-- A step of reduction is taken in later states too. -/
theorem HeadStep.mono (step : HeadStep before term next) (retains : before.Retains after) :
    HeadStep after term next := by
  cases step with
  | placeholder isPlaceholder solved substituted =>
    exact .placeholder isPlaceholder (retains.solution _ _ solved) substituted
  | function isConst found enough substituted =>
    exact .function isConst (retains.body _ _ found) enough substituted

/-- A term that was reduced to one at which reduction still stops later is reduced to it then. -/
theorem reduce_of_retains (retains : before.Retains after) (stops : Stops after result)
    (reduced : reduce before fuel term = .ok result) : reduce after fuel term = .ok result := by
  induction fuel generalizing term with
  | zero => cases reduced
  | succ fuel ih =>
    cases term with
    | const | app | placeholder =>
      simp only [reduce, bind_eq_ok_iff] at reduced
      obtain ⟨next?, unfolded, continued⟩ := reduced
      cases next? with
      | none =>
        obtain rfl := Except.ok.inj continued
        exact reduce_of_stops stops fuel
      | some next =>
        have step := (unfoldHead?_eq_some_iff.1 unfolded).mono retains
        rw [reduce_of_unfoldHead? (unfoldHead?_eq_some_iff.2 step)]
        exact ih continued
    | univ | level =>
      simp only [reduce, bind_eq_ok_iff, pure_eq_ok_iff] at reduced
      obtain ⟨_, _, rfl⟩ := reduced
      exact stops.elim
    | var | pi => exact reduced

/-- Reduction takes steps that can also be taken later, except within a sort or a level. -/
theorem steps_of_reduce {depth : Nat} (retains : before.Retains state)
    (wellScoped : state.WellScoped) (inScope : term.Scoped state.Fits depth)
    (reduced : reduce before fuel term = .ok result) :
    Steps state term result ∧ result.Scoped state.Fits depth ∨
      (∃ sort, result = .univ sort) ∨ ∃ bound, result = .level bound := by
  induction fuel generalizing term with
  | zero => simp [reduce] at reduced
  | succ fuel ih =>
    cases term with
    | const | app | placeholder =>
      simp only [reduce, bind_eq_ok_iff] at reduced
      obtain ⟨next?, unfolded, continued⟩ := reduced
      cases next? with
      | none =>
        obtain rfl := Except.ok.inj continued
        exact .inl ⟨.refl, inScope⟩
      | some next =>
        have step := (unfoldHead?_eq_some_iff.1 unfolded).mono retains
        obtain ⟨unfolds, nextInScope⟩ := step.unfolds wellScoped inScope
        exact (ih nextInScope continued).imp_left
          (And.imp_left (.head unfolds))
    | var | pi =>
      obtain rfl := Except.ok.inj reduced
      exact .inl ⟨.refl, inScope⟩
    | univ | level =>
      simp only [reduce, bind_eq_ok_iff, pure_eq_ok_iff] at reduced
      obtain ⟨part, _, rfl⟩ := reduced
      exact .inr (by simp)

/-! ## Substitution -/

theorem Steps.replace (steps : Steps state term next) (images : Nat → Term) :
    Steps state (term.replace images) (next.replace images) := by
  induction steps with
  | refl => exact .refl
  | tail _ unfolds ih => exact ih.tail (unfolds.replace images)

theorem Steps.mono {later : State} (steps : Steps state term next) (retains : state.Retains later) :
    Steps later term next :=
  Relation.ReflTransGen.mono (fun _ _ unfolds => unfolds.mono retains) _ _ steps

/-- Substitutions that do the same to a term do the same to what it becomes. -/
theorem Steps.replace_eq {left right : Nat → Term} (steps : Steps state term next)
    (same : term.replace left = term.replace right) : next.replace left = next.replace right := by
  induction steps with
  | refl => exact same
  | tail _ unfolds ih =>
    have unfoldsRight := unfolds.replace right
    rw [← ih] at unfoldsRight
    exact (unfolds.replace left).deterministic unfoldsRight

end Families
