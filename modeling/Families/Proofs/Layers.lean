import Families.Reduction
import Families.Proofs.Levels

/-!
# Evaluation, layer by layer

What a step at the head of a term, a reduction and a normalisation did, once they succeeded.  Later
proofs about evaluation are inductions over these rules and case distinctions on them.
-/

namespace Families

variable {state : State} {fuel : Nat} {category : Category} {phrase result : Phrase category}

/-! ## Steps at the head -/

/-- The arity and the body of a function that unfolds. -/
def Signature.body? (signature : Signature) (path : Path) : Option (Nat × Term) :=
  match signature.definition? path with
  | some ⟨_, _, .function arity (some body)⟩ => some (arity, body)
  | _ => none

/-- The term takes a step at its head: a placeholder becomes its solution, or a function with all
its arguments becomes its body. -/
inductive HeadStep (state : State) (term : Term) : Term → Prop where
  | placeholder {id : Nat} {arguments : Phrase .terms} {solution value : Term} :
      term.head = .placeholder id arguments → state.solution? id = some (.term solution) →
      solution.substitute? arguments.toList = some value →
      HeadStep state term (value.applyTo term.arguments)
  | function {path : Path} {arity : Nat} {body value : Term} :
      term.head = .const path → state.signature.body? path = some (arity, body) →
      arity ≤ term.arguments.length →
      body.substitute? ((term.arguments.take arity).reverse.map (·.2)) = some value →
      HeadStep state term (value.applyTo (term.arguments.drop arity))

theorem forall_mem_taken {holds : Term → Prop} {arguments : List (ArgInfo × Term)} {arity : Nat}
    (each : ∀ argument ∈ arguments, holds argument.2) :
    ∀ argument ∈ (arguments.take arity).reverse.map (·.2), holds argument := by
  intro argument present
  obtain ⟨entry, entryPresent, rfl⟩ := List.mem_map.1 present
  exact each entry (List.mem_of_mem_take (List.mem_reverse.1 entryPresent))

theorem Signature.definition?_of_body? {signature : Signature} {path : Path} {arity : Nat}
    {body : Term} (found : signature.body? path = some (arity, body)) :
    ∃ own ty, signature.definition? path = some ⟨own, ty, .function arity (some body)⟩ := by
  unfold body? at found
  split at found
  · rename_i declared
    obtain ⟨rfl, rfl⟩ : _ ∧ _ := by simpa using found
    exact ⟨_, _, declared⟩
  · cases found

theorem unfoldHead?_eq_some_iff {term next : Term} :
    unfoldHead? state term = .ok (some next) ↔ HeadStep state term next := by
  constructor
  · intro unfolded
    unfold unfoldHead? at unfolded
    split at unfolded
    · rename_i isPlaceholder
      split at unfolded
      · rename_i solved
        simp only [bind_eq_ok_iff, checked_eq_ok_iff, pure_eq_ok_iff, Option.some.injEq] at unfolded
        obtain ⟨value, substituted, rfl⟩ := unfolded
        exact .placeholder isPlaceholder solved substituted
      · cases unfolded
    · rename_i isConst
      split at unfolded
      · rename_i declared
        split at unfolded
        · rename_i enough
          simp only [bind_eq_ok_iff, checked_eq_ok_iff, pure_eq_ok_iff,
            Option.some.injEq] at unfolded
          obtain ⟨value, substituted, rfl⟩ := unfolded
          exact .function isConst (by rw [Signature.body?, declared]) enough substituted
        · cases unfolded
      · cases unfolded
    · cases unfolded
  · intro step
    cases step with
    | placeholder isPlaceholder solved substituted =>
      simp only [unfoldHead?, isPlaceholder, solved, substituted, checked]
      rfl
    | function isConst found enough substituted =>
      obtain ⟨_, _, declared⟩ := Signature.definition?_of_body? found
      simp only [unfoldHead?, isConst, declared, if_pos enough, substituted, checked]
      rfl

/-- A term takes no step when its head has no solution and lacks arguments. -/
theorem unfoldHead?_eq_none_iff {term : Term} :
    unfoldHead? state term = .ok none ↔
      (∀ id arguments, term.head = .placeholder id arguments →
        ∀ solution, state.solution? id ≠ some (.term solution)) ∧
      ∀ path arity body, term.head = .const path → state.signature.body? path = some (arity, body) →
        term.arguments.length < arity := by
  have noStep : ∀ {value? : Option Term} {next : Term → Term},
      (checked value? >>= fun value => pure (some (next value))) ≠ .ok none := by
    intro value? next succeeded
    obtain ⟨value, _, isNone⟩ := bind_eq_ok_iff.1 succeeded
    cases isNone
  simp only [unfoldHead?, Signature.body?]
  split
  · rename_i id arguments isHead
    split
    · rename_i solution solved
      refine iff_of_false noStep fun none => ?_
      exact none.1 id arguments isHead solution solved
    · rename_i unsolved
      refine iff_of_true rfl ⟨?_, fun _ _ _ isConst => by simp [isHead] at isConst⟩
      rintro _ _ isPlaceholder solution solved
      obtain ⟨rfl, rfl⟩ := Phrase.placeholder.inj (isHead.symm.trans isPlaceholder)
      exact unsolved solution solved
  · rename_i path isHead
    have noPlaceholder : ∀ id arguments, term.head = .placeholder id arguments →
        ∀ solution, state.solution? id ≠ some (.term solution) :=
      fun _ _ isPlaceholder => by simp [isHead] at isPlaceholder
    split
    · rename_i definition ty arity body declared
      split
      · rename_i enough
        refine iff_of_false noStep fun none => ?_
        have fewer := none.2 path arity body isHead (by rw [declared])
        omega
      · rename_i missing
        refine iff_of_true rfl ⟨noPlaceholder, ?_⟩
        intro _ _ _ isConst found
        obtain rfl := Phrase.const.inj (isHead.symm.trans isConst)
        obtain ⟨rfl, rfl⟩ : _ ∧ _ := by simpa [declared] using found
        omega
    · rename_i noBody
      refine iff_of_true rfl ⟨noPlaceholder, ?_⟩
      intro _ arity body isConst found
      obtain rfl := Phrase.const.inj (isHead.symm.trans isConst)
      split at found
      · rename_i declared
        exact absurd declared (noBody _ _ _ _)
      · cases found
  · rename_i noPlaceholder noConst
    exact iff_of_true rfl ⟨fun _ _ isHead => absurd isHead (noPlaceholder _ _),
      fun _ _ _ isHead => absurd isHead (noConst _)⟩

/-! ## Reduction -/

/-- Reduction stops at the phrase without a look at its parts. -/
def Stops (state : State) : {category : Category} → Phrase category → Prop
  | _, .univ _ => False
  | _, .level _ => False
  | _, .set _ => False
  | _, .lub _ _ => False
  | _, .sortPlaceholder id _ => ∀ solution, state.solution? id ≠ some (.sort solution)
  | .term, term => unfoldHead? state term = .ok none
  | _, _ => True

theorem reduce_of_unfoldHead? {term next : Term}
    (unfolded : unfoldHead? state term = .ok (some next)) (fuel : Nat) :
    reduce state (fuel + 1) term = reduce state fuel next := by
  cases term with
  | const | app | placeholder =>
    simp only [reduce, unfolded]
    rfl
  | _ => simp [unfoldHead?, Phrase.head, pure, Except.pure] at unfolded

/-- Reduction leads from a phrase to another. -/
inductive Reached (state : State) :
    {category : Category} → Phrase category → Phrase category → Prop where
  | univ {sort sort' : Universe} :
      Reached state sort sort' → Reached state (.univ sort) (.univ sort')
  | level {bound bound' : Level} :
      Reached state bound bound' → Reached state (.level bound) (.level bound')
  | set {bound bound' : Level} :
      Reached state bound bound' → Reached state (.set bound) (.set bound')
  | step {term next result : Term} :
      HeadStep state term next → Reached state next result → Reached state term result
  | sortStep {id : Nat} {arguments : Phrase .terms} {solution sort result : Universe} :
      state.solution? id = some (.sort solution) →
      solution.substitute? arguments.toList = some sort → Reached state sort result →
      Reached state (.sortPlaceholder id arguments) result
  | lub {constant : Nat} {atoms : Phrase .atoms} {heads : Term → Term} {joined : Level} :
      (∀ atom ∈ atoms.atomList, Reached state atom.term (heads atom.term)) →
      Level.Flattens (Phrase.lub constant (atoms.mapAtoms heads)) joined →
      Level.Canonical joined → Reached state (.lub constant atoms) joined
  | stops {category : Category} {phrase : Phrase category} :
      Stops state phrase → Reached state phrase phrase

/-! ## Normalisation -/

/-- The phrase is rebuilt from the normal forms of its parts. -/
inductive Rebuilds (state : State) (fuel : Nat) :
    {category : Category} → Phrase category → Phrase category → Prop where
  | var {index : Nat} : Rebuilds state fuel (.var index) (.var index)
  | const {path : Path} : Rebuilds state fuel (.const path) (.const path)
  | prop : Rebuilds state fuel .prop .prop
  | sizeUniv : Rebuilds state fuel .sizeUniv .sizeUniv
  | omega : Rebuilds state fuel .omega .omega
  | noAtoms : Rebuilds state fuel .noAtoms .noAtoms
  | noTerms : Rebuilds state fuel .noTerms .noTerms
  | app {function function' argument argument' : Term} {info : ArgInfo} :
      normalise state fuel function = .ok function' →
      normalise state fuel argument = .ok argument' →
      Rebuilds state fuel (.app function argument info) (.app function' argument' info)
  | pi {name : Name} {info : ArgInfo} {domain domain' codomain codomain' : Ty} :
      normalise state fuel domain = .ok domain' → normalise state fuel codomain = .ok codomain' →
      Rebuilds state fuel (.pi name info domain codomain) (.pi name info domain' codomain')
  | univ {sort sort' : Universe} :
      normalise state fuel sort = .ok sort' → Rebuilds state fuel (.univ sort) (.univ sort')
  | level {bound bound' : Level} :
      normalise state fuel bound = .ok bound' → Rebuilds state fuel (.level bound) (.level bound')
  | placeholder {id : Nat} {arguments arguments' : Phrase .terms} :
      normalise state fuel arguments = .ok arguments' →
      Rebuilds state fuel (.placeholder id arguments) (.placeholder id arguments')
  | classified {sort sort' : Universe} {term term' : Term} :
      normalise state fuel sort = .ok sort' → normalise state fuel term = .ok term' →
      Rebuilds state fuel (.classified sort term) (.classified sort' term')
  | set {bound bound' : Level} :
      normalise state fuel bound = .ok bound' → Rebuilds state fuel (.set bound) (.set bound')
  | sortPlaceholder {id : Nat} {arguments arguments' : Phrase .terms} :
      normalise state fuel arguments = .ok arguments' →
      Rebuilds state fuel (.sortPlaceholder id arguments) (.sortPlaceholder id arguments')
  | lub {constant : Nat} {atoms atoms' : Phrase .atoms} :
      normalise state fuel atoms = .ok atoms' →
      Rebuilds state fuel (.lub constant atoms) (Level.canonical constant atoms'.atomList)
  | atom {term term' : Term} {offset : Nat} {rest rest' : Phrase .atoms} :
      normalise state fuel term = .ok term' → normalise state fuel rest = .ok rest' →
      Rebuilds state fuel (.atom term offset rest) (.atom term' offset rest')
  | terms {first first' : Term} {rest rest' : Phrase .terms} :
      normalise state fuel first = .ok first' → normalise state fuel rest = .ok rest' →
      Rebuilds state fuel (.terms first rest) (.terms first' rest')

theorem rebuild_eq_ok_iff :
    rebuild (fun part => normalise state fuel part) phrase = .ok result ↔
      Rebuilds state fuel phrase result := by
  constructor
  · intro rebuilt
    cases phrase with
    | app | pi | classified | atom | terms =>
      simp only [rebuild, bind_eq_ok_iff, pure_eq_ok_iff] at rebuilt
      obtain ⟨_, _, _, _, rfl⟩ := rebuilt
      constructor <;> assumption
    | univ | level | placeholder | set | sortPlaceholder | lub =>
      simp only [rebuild, bind_eq_ok_iff, pure_eq_ok_iff] at rebuilt
      obtain ⟨_, _, rfl⟩ := rebuilt
      constructor
      assumption
    | _ =>
      obtain rfl := Except.ok.inj rebuilt
      constructor
  · intro rebuilds
    cases rebuilds <;> simp_all [rebuild, bind_eq_ok_iff, pure_eq_ok_iff]

/-- Normalisation reduces a phrase and rebuilds the result. -/
theorem normalise_eq_ok_iff :
    normalise state (fuel + 1) phrase = .ok result ↔
      ∃ reduced, reduce state fuel phrase = .ok reduced ∧ Rebuilds state fuel reduced result := by
  simp only [normalise, bind_eq_ok_iff, rebuild_eq_ok_iff]

theorem exists_of_normalise (normalised : normalise state fuel phrase = .ok result) :
    ∃ fuel reduced, reduce state fuel phrase = .ok reduced ∧
      Rebuilds state fuel reduced result := by
  cases fuel with
  | zero => cases normalised
  | succ fuel => exact ⟨fuel, normalise_eq_ok_iff.1 normalised⟩

/-- A phrase is rebuilt alike from parts with the same normal forms. -/
theorem Rebuilds.of_parts {after : State} {more : Nat}
    (rebuilds : Rebuilds state fuel phrase result)
    (succeed : ∀ {category : Category} {phrase result : Phrase category},
      normalise state fuel phrase = .ok result → normalise after more phrase = .ok result) :
    Rebuilds after more phrase result := by
  cases rebuilds <;> constructor <;> exact succeed (by assumption)

end Families
