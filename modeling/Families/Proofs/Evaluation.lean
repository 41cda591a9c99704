import Families.Proofs.Inert
import Families.Proofs.ScopedState

/-!
# Steps at the head

The steps that reduction takes follow rules that mention neither a bound on the recursion nor a
bound on numbers.  In a well-scoped state they keep terms scoped, and where reduction ends there is
none.
-/

namespace Families

variable {state : State} {category : Category} {depth fuel id : Nat} {arguments : Phrase .terms}
variable {next term : Term} {phrase result : Phrase category}

/-! ## Chains of applications -/

namespace Phrase

variable {category : Category}

theorem applyTo_append (function : Term) (first second : List (ArgInfo × Term)) :
    function.applyTo (first ++ second) = (function.applyTo first).applyTo second :=
  List.foldl_append

theorem argumentsFrom_eq_append (phrase : Phrase category) (later : List (ArgInfo × Term)) :
    phrase.argumentsFrom later = phrase.argumentsFrom [] ++ later := by
  induction phrase generalizing later with
  | app function argument info ihFunction =>
    simp only [argumentsFrom]
    rw [ihFunction, ihFunction [(info, argument)]]
    simp
  | _ => rfl

@[simp]
theorem arguments_app (function argument : Term) (info : ArgInfo) :
    (app function argument info).arguments = function.arguments ++ [(info, argument)] :=
  argumentsFrom_eq_append function [(info, argument)]

@[simp]
theorem head_app (function argument : Term) (info : ArgInfo) :
    (app function argument info).head = function.head := rfl

theorem head_applyTo (function : Term) (arguments : List (ArgInfo × Term)) :
    (function.applyTo arguments).head = function.head := by
  induction arguments generalizing function with
  | nil => rfl
  | cons first rest ih => exact ih (app function first.2 first.1)

theorem arguments_applyTo (function : Term) (arguments : List (ArgInfo × Term)) :
    (function.applyTo arguments).arguments = function.arguments ++ arguments := by
  induction arguments generalizing function with
  | nil => simp [applyTo]
  | cons first rest ih =>
    have applied := ih (app function first.2 first.1)
    rw [arguments_app, List.append_assoc] at applied
    exact applied

/-- A term is its head applied to its arguments. -/
theorem applyTo_arguments : ∀ term : Term, term.head.applyTo term.arguments = term
  | app function argument info => by
    rw [head_app, arguments_app, applyTo_append, applyTo_arguments function]
    rfl
  | var _ | const _ | pi _ _ _ _ | univ _ | level _ | placeholder _ _ => rfl

end Phrase

/-! ## Steps at the head -/

/-- A step at the head of a term: a placeholder becomes its solution, or a function with all its
arguments becomes its body. -/
inductive Unfolds (state : State) : Term → Term → Prop where
  | placeholder {id : Nat} {arguments : Phrase .terms} {solution : Term} :
      state.solution? id = some (.term solution) →
      solution.Below arguments.toList.length →
      Unfolds state (.placeholder id arguments)
        (solution.replace (Phrase.assigned arguments.toList))
  | function {path : Path} {arity : Nat} {body term : Term} :
      state.signature.body? path = some (arity, body) →
      body.Below arity →
      term.head = .const path →
      term.arguments.length = arity →
      Unfolds state term (body.replace (Phrase.assigned (term.arguments.reverse.map (·.2))))
  | app {function function' argument : Term} {info : ArgInfo} :
      Unfolds state function function' →
      Unfolds state (.app function argument info) (.app function' argument info)

theorem Unfolds.applyTo {function function' : Term} (unfolds : Unfolds state function function')
    (arguments : List (ArgInfo × Term)) :
    Unfolds state (function.applyTo arguments) (function'.applyTo arguments) := by
  induction arguments generalizing function function' with
  | nil => exact unfolds
  | cons first rest ih => exact ih unfolds.app

theorem Unfolds.function_applyTo {path : Path} {arity : Nat} {body : Term}
    {arguments : List (ArgInfo × Term)} (found : state.signature.body? path = some (arity, body))
    (below : body.Below arity) (full : arguments.length = arity) :
    Unfolds state ((Phrase.const path).applyTo arguments)
      (body.replace (Phrase.assigned (arguments.reverse.map (·.2)))) := by
  have onlyArguments : ((Phrase.const path).applyTo arguments).arguments = arguments :=
    Phrase.arguments_applyTo _ _
  have step := Unfolds.function found below (Phrase.head_applyTo _ arguments)
    ((congrArg List.length onlyArguments).trans full)
  rwa [onlyArguments] at step

/-- What makes a step at the head possible. -/
theorem Unfolds.head_cases (unfolds : Unfolds state term next) :
    (∃ id arguments solution, term.head = .placeholder id arguments ∧
      state.solution? id = some (.term solution)) ∨
    (∃ path arity body, term.head = .const path ∧
      state.signature.body? path = some (arity, body) ∧ arity ≤ term.arguments.length) := by
  induction unfolds with
  | placeholder solved below => exact .inl ⟨_, _, _, rfl, solved⟩
  | function found below isConst full => exact .inr ⟨_, _, _, isConst, found, full.ge⟩
  | app unfolds ih =>
    rcases ih with solved | ⟨path, arity, body, isConst, found, enough⟩
    · exact .inl solved
    · refine .inr ⟨path, arity, body, isConst, found, ?_⟩
      rw [Phrase.arguments_app, List.length_append]
      omega

/-- The step that reduction takes at the head of a scoped term. -/
theorem HeadStep.unfolds (step : HeadStep state term next) (wellScoped : state.WellScoped)
    (inScope : term.Scoped state.Fits depth) :
    Unfolds state term next ∧ next.Scoped state.Fits depth := by
  obtain ⟨headInScope, argumentsInScope⟩ := (Phrase.scoped_iff_arguments term).1 inScope
  cases step with
  | @placeholder id arguments solution value isPlaceholder solved substituted =>
    rw [isPlaceholder] at headInScope
    obtain ⟨_, ⟨⟩, solutionInScope⟩ := wellScoped.termSolution headInScope.1 solved
    constructor
    · rw [Phrase.eq_replace_of_substitute? substituted]
      have step := (Unfolds.placeholder solved solutionInScope.below).applyTo term.arguments
      rwa [← isPlaceholder, Phrase.applyTo_arguments] at step
    · exact (solutionInScope.substitute?
        ((Phrase.scoped_iff_toList arguments).1 headInScope.2) substituted).applyTo argumentsInScope
  | @function path arity body value isConst found enough substituted =>
    obtain ⟨_, _, declared⟩ := Signature.definition?_of_body? found
    have bodyInScope : body.Scoped state.Fits arity := (wellScoped.definition declared).2
    have takenLength : (term.arguments.take arity).length = arity := by simpa using enough
    constructor
    · rw [Phrase.eq_replace_of_substitute? substituted]
      have step := (Unfolds.function_applyTo found bodyInScope.below takenLength).applyTo
        (term.arguments.drop arity)
      rwa [← Phrase.applyTo_append, List.take_append_drop, ← isConst,
        Phrase.applyTo_arguments] at step
    · refine Phrase.Scoped.applyTo (Phrase.Scoped.substitute? ?_ ?_ substituted) ?_
      · simpa [enough] using bodyInScope
      · exact forall_mem_taken argumentsInScope
      · exact fun argument present => argumentsInScope argument (List.mem_of_mem_drop present)

/-- Nothing happens at the head of the phrase: neither a step nor a visit to the parts of a
level. -/
def Stuck (state : State) : {category : Category} → Phrase category → Prop
  | _, .univ _ => False
  | _, .level _ => False
  | _, .set _ => False
  | _, .lub _ _ => False
  | _, .sortPlaceholder id _ => ∀ solution, state.solution? id ≠ some (.sort solution)
  | .term, term => ∀ next, ¬Unfolds state term next
  | _, _ => True

/-- Reduction stops at a term without a step at its head. -/
theorem not_unfolds_of_unfoldHead? (unfolded : unfoldHead? state term = .ok none) (next : Term) :
    ¬Unfolds state term next := by
  intro unfolds
  obtain ⟨unsolved, fewer⟩ := unfoldHead?_eq_none_iff.1 unfolded
  rcases unfolds.head_cases with
    ⟨id, arguments, solution, isPlaceholder, solved⟩ | ⟨path, arity, body, isConst, found, enough⟩
  · exact unsolved id arguments isPlaceholder solution solved
  · exact absurd (fewer path arity body isConst found) (Nat.not_lt_of_le enough)

theorem Stops.stuck (stops : Stops state phrase) : Stuck state phrase := by
  cases phrase with
  | univ | level | set | lub => exact stops.elim
  | var | const | app | pi | placeholder => exact not_unfolds_of_unfoldHead? stops
  | sortPlaceholder => exact stops
  | _ => trivial

/-- The phrase has no parts. -/
def Phrase.IsAtomic : {category : Category} → Phrase category → Prop
  | _, .var _ => True
  | _, .const _ => True
  | _, .prop => True
  | _, .sizeUniv => True
  | _, .omega => True
  | _, .noAtoms => True
  | _, .noTerms => True
  | _, _ => False

/-! ## Phrases at which reduction ends -/

/-- An inert term cannot be unfolded. -/
theorem Inert.not_unfolds (inert : Inert state term) : ¬Unfolds state term next := by
  intro unfolds
  cases inert with
  | stops stops =>
    cases term with
    | univ | level => exact stops.elim
    | _ => exact not_unfolds_of_unfoldHead? stops next unfolds
  | univ | level => simpa [Phrase.head] using unfolds.head_cases

/-- A placeholder at which reduction ends has no solution. -/
theorem Inert.unsolved (inert : Inert state (.placeholder id arguments))
    (wellScoped : state.WellScoped)
    (inScope : (Phrase.placeholder id arguments).Scoped state.Fits depth) :
    state.solution? id = none := by
  cases solved : state.solution? id with
  | none => rfl
  | some solution =>
    obtain ⟨value, rfl, _⟩ := wellScoped.termSolution inScope.1 solved
    cases inert with
    | stops stops =>
      exact absurd solved ((unfoldHead?_eq_none_iff.1 stops).1 id arguments rfl value)

/-- A placeholder for a sort at which reduction ends has no solution. -/
theorem Inert.unsolved_sort (inert : Inert state (.sortPlaceholder id arguments))
    (wellScoped : state.WellScoped)
    (inScope : (Phrase.sortPlaceholder id arguments).Scoped state.Fits depth) :
    state.solution? id = none := by
  cases solved : state.solution? id with
  | none => rfl
  | some solution =>
    obtain ⟨sort, rfl, _⟩ := wellScoped.sortSolution inScope.1 solved
    cases inert with
    | stops stops => exact absurd solved (stops sort)

/-! ## Reduction does not break invariants -/

theorem faultless_unfoldHead? (state : State) (term : Term) :
    Faultless (unfoldHead? state term) := by
  unfold unfoldHead?
  split
  · split
    · exact (faultless_checked _).bind fun _ _ => faultless_pure _
    · exact faultless_pure _
  · split
    · split
      · exact (faultless_checked _).bind fun _ _ => faultless_pure _
      · exact faultless_pure _
    · exact faultless_pure _
  · exact faultless_pure _

theorem faultless_reducedAtom (term : Term) (offset : Nat) :
    Faultless (reducedAtom term offset) := by
  unfold reducedAtom
  split
  · exact faultless_checked _
  · exact faultless_pure _

theorem faultless_reduce (state : State) (fuel : Nat) (phrase : Phrase category) :
    Faultless (reduce state fuel phrase) := by
  induction fuel generalizing category with
  | zero =>
    rw [reduce]
    exact faultless_exhausted
  | succ fuel ih =>
    cases phrase with
    | univ | level | set =>
      rw [reduce]
      exact (ih _).bind fun _ _ => faultless_pure _
    | const | app | placeholder =>
      simp only [reduce]
      refine (faultless_unfoldHead? state _).bind fun next? _ => ?_
      cases next? with
      | none => exact faultless_pure _
      | some next => exact ih next
    | sortPlaceholder id arguments =>
      simp only [reduce]
      split
      · exact (faultless_checked _).bind fun _ _ => ih _
      · exact faultless_pure _
    | lub constant atoms =>
      simp only [reduce]
      refine faultless_foldlM (fun joined atom _ => ?_) _
      refine (ih _).bind fun _ _ => ?_
      exact (faultless_reducedAtom _ _).bind fun _ _ => faultless_pure _
    | _ =>
      simp only [reduce]
      exact faultless_pure _

theorem faultless_normalise (state : State) (fuel : Nat) (phrase : Phrase category) :
    Faultless (normalise state fuel phrase) := by
  induction fuel generalizing category with
  | zero =>
    rw [normalise]
    exact faultless_exhausted
  | succ fuel ih =>
    rw [normalise]
    refine (faultless_reduce state fuel phrase).bind fun reduced _ => ?_
    cases reduced with
    | app | pi | classified | atom | terms =>
      rw [rebuild]
      refine (ih _).bind fun _ _ => ?_
      exact (ih _).bind fun _ _ => faultless_pure _
    | univ | level | placeholder | set | sortPlaceholder | lub =>
      rw [rebuild]
      exact (ih _).bind fun _ _ => faultless_pure _
    | _ => exact faultless_pure _

theorem faultless_telescopeView (state : State) (fuel : Nat) (ty : Ty) :
    Faultless (telescopeView state fuel ty) := by
  induction fuel generalizing ty with
  | zero =>
    rw [telescopeView]
    exact faultless_exhausted
  | succ fuel ih =>
    rw [telescopeView]
    refine (faultless_reduce state fuel ty.term).bind fun reduced _ => ?_
    split
    · exact (ih _).bind fun _ _ => faultless_pure _
    · exact faultless_pure _

end Families
