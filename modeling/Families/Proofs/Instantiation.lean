import Families.Builtin
import Families.Proofs.Acyclicity
import Families.Proofs.Halting

/-!
# Instantiation ends

Where no function has a body, only placeholders unfold.  A solution may copy the arguments of its
placeholder, and these may start with the same placeholder again.  So halting is proved for all
substitution instances of a phrase at once, by induction on the phrase, and before that on the rank
of the placeholders in it.
-/

namespace Families

variable {term next : Term} {reason : Halt} {phrase : Phrase category} {images : Nat → Term}

/-! ## Unfolding the head -/

/-- Unfolding the head fails only where a number leaves the range of words. -/
theorem unfoldHead?_eq_error {state : State} (failed : unfoldHead? state term = .error reason) :
    reason = .overflow := by
  have ofChecked : ∀ {value? : Option Term} {next : Term → Option Term},
      (checked value? >>= fun value => pure (next value)) = .error reason → reason = .overflow := by
    intro value? next failed
    cases value? with
    | none => exact (Except.error.inj failed).symm
    | some value => simp [checked, bind, Except.bind, pure, Except.pure] at failed
  simp only [unfoldHead?] at failed
  split at failed
  · split at failed
    · exact ofChecked failed
    · simp [pure, Except.pure] at failed
  · split at failed
    · split at failed
      · exact ofChecked failed
      · simp [pure, Except.pure] at failed
    · simp [pure, Except.pure] at failed
  · simp [pure, Except.pure] at failed

theorem Signature.definition?_ne {signature : Signature} {path other : Path} {ty : Ty} {arity : Nat}
    {body : Term} (noBody : signature.body? path = none) :
    signature.definition? path ≠ some ⟨other, ty, .function arity (some body)⟩ := by
  intro declared
  simp [body?, declared] at noBody

/-- Where no function has a body, the head of an application unfolds as its function does. -/
theorem unfoldHead?_app {state : State} (bodiless : ∀ path, state.signature.body? path = none)
    (function argument : Term) (info : ArgInfo) :
    unfoldHead? state (.app function argument info) =
      (unfoldHead? state function).map (Option.map fun function =>
        .app function argument info) := by
  simp only [unfoldHead?, Phrase.head_app, Phrase.arguments_app, Phrase.applyTo_append]
  split
  · split
    · rename_i solution solved
      cases checked (solution.substitute? _) <;> rfl
    · rfl
  · split
    · rename_i declared
      exact absurd declared (Signature.definition?_ne (bodiless _))
    · rfl
  · rfl

/-- Where no function has a body, reduction stops at every constant. -/
theorem stops_const {state : State} (bodiless : ∀ path, state.signature.body? path = none)
    (path : Path) : Stops state (.const path) := by
  exact unfoldHead?_eq_none_iff.2 (by simp [Phrase.head, bodiless])

namespace Halts

variable {state : State} {category : Category}

/-- A phrase whose reduction goes on with another phrase halts with this one. -/
theorem iff_of_reduce {phrase next : Phrase category}
    (continues : ∀ fuel, Families.reduce state (fuel + 1) phrase =
      Families.reduce state fuel next) :
    Halts state phrase ↔ Halts state next := by
  constructor
  · rintro ⟨ends, parts⟩
    refine .intro ?_ fun {fuel result} reduced => parts ((continues fuel).trans reduced)
    simpa only [continues] using ends.succ
  · rintro ⟨ends, parts⟩
    refine .intro (.of_succ (by simpa only [continues] using ends)) fun {fuel result} reduced => ?_
    cases fuel with
    | zero => simp [Families.reduce] at reduced
    | succ fuel => exact parts ((continues fuel).symm.trans reduced)

theorem iff_unfoldHead? (unfolded : unfoldHead? state term = .ok (some next)) :
    Halts state term ↔ Halts state next :=
  iff_of_reduce (reduce_of_unfoldHead? unfolded)

/-- A phrase on which reduction fails halts. -/
theorem of_error (failed : ∀ fuel, Families.reduce state (fuel + 1) phrase = .error reason)
    (overflows : reason = .overflow) : Halts state phrase := by
  refine .intro (.of_succ ⟨.error reason, by simp [overflows], .of_forall failed⟩) ?_
  intro fuel result reduced
  cases fuel with
  | zero => simp [Families.reduce] at reduced
  | succ fuel => simp [failed fuel] at reduced

theorem of_unfoldHead?_error (failed : unfoldHead? state term = .error reason) :
    Halts state term := by
  refine of_error (fun fuel => ?_) (unfoldHead?_eq_error failed)
  cases term with
  | const | app | placeholder =>
    simp only [Families.reduce, failed]
    rfl
  | _ => simp [unfoldHead?, Phrase.head, pure, Except.pure] at failed

/-- The application of a halting term to a halting term halts. -/
theorem app {function argument : Term} {info : ArgInfo}
    (bodiless : ∀ path, state.signature.body? path = none) (functionHalts : Halts state function)
    (argumentHalts : Halts state argument) : Halts state (.app function argument info) := by
  obtain ⟨enough, ends⟩ := functionHalts.reduce.exists_ne_exhausted
  -- The induction is on the steps that the function takes before its head is fixed.
  induction enough generalizing function with
  | zero => exact absurd rfl ends
  | succ enough ih =>
    have asFunction := unfoldHead?_app bodiless function argument info
    cases unfolded : unfoldHead? state function with
    | error reason =>
      rw [unfolded] at asFunction
      exact of_unfoldHead?_error asFunction
    | ok next? =>
      rw [unfolded] at asFunction
      cases next? with
      | none =>
        exact of_two_parts asFunction rfl functionHalts argumentHalts
      | some next =>
        rw [reduce_of_unfoldHead? unfolded] at ends
        refine (iff_unfoldHead? asFunction).2 ?_
        exact ih ((iff_unfoldHead? unfolded).1 functionHalts) ends

end Halts

/-! ## Substitution instances -/

variable {state : State} {category : Category}

/-- The term halts in whatever scope it is used. -/
def Persists (state : State) (term : Term) : Prop :=
  ∀ targets, Halts state (term.rename targets)

theorem Persists.halts (persists : Persists state term) : Halts state term := by
  rw [← Phrase.rename_eq_self term fun _ => rfl]
  exact persists id

theorem Persists.rename (persists : Persists state term) (targets : Nat → Nat) :
    Persists state (term.rename targets) := by
  intro others
  rw [Phrase.rename_rename]
  exact persists _

theorem persists_var (index : Nat) : Persists state (.var index) :=
  fun _ => .of_no_parts rfl rfl

theorem persists_up (persist : ∀ index, Persists state (images index)) :
    ∀ index, Persists state (Phrase.up images index)
  | 0 => persists_var 0
  | index + 1 => (persist index).rename _

/-- The placeholder halts for all arguments that halt wherever they are used. -/
def Instantiates (state : State) : Category → Nat → Prop
  | .term, id => ∀ arguments : Phrase .terms,
      (∀ argument ∈ arguments.toList, Persists state argument) →
      Halts state (.placeholder id arguments)
  | .sort, id => ∀ arguments : Phrase .terms,
      (∀ argument ∈ arguments.toList, Persists state argument) →
      Halts state (.sortPlaceholder id arguments)
  | _, _ => True

/-- The terms of a sequence persist if all instances of the sequence halt, since renaming an
instance gives another one. -/
theorem persist_replace {sequence : Phrase .terms}
    (halt : ∀ {images}, (∀ index, Persists state (images index)) →
      Halts state (sequence.replace images))
    (persist : ∀ index, Persists state (images index)) :
    ∀ term ∈ (sequence.replace images).toList, Persists state term := by
  intro term present targets
  have renamed := halt fun index => (persist index).rename targets
  rw [← Phrase.rename_replace] at renamed
  refine (Halts.iff_toList _).1 renamed _ ?_
  rw [Phrase.toList_rename]
  exact List.mem_map_of_mem present

/-- All instances of a phrase halt if its placeholders do. -/
theorem halts_replace (bodiless : ∀ path, state.signature.body? path = none)
    (instantiates : phrase.Uses (Instantiates state))
    (persist : ∀ index, Persists state (images index)) : Halts state (phrase.replace images) := by
  obtain ⟨depth, instantiates⟩ := instantiates
  induction phrase generalizing depth images with
  | var index => exact (persist index).halts
  | const path => exact .of_no_parts (stops_const bodiless path) rfl
  | app function argument info ihFunction ihArgument =>
    exact (ihFunction persist depth instantiates.1).app bodiless
      (ihArgument persist depth instantiates.2)
  | pi name info domain codomain ihDomain ihCodomain =>
    have domainHalts := ihDomain persist depth instantiates.1
    have codomainHalts := ihCodomain (persists_up persist) (depth + 1) instantiates.2
    exact .of_two_parts rfl rfl domainHalts codomainHalts
  | univ sort ih => exact (ih persist depth instantiates).univ
  | level bound ih => exact (ih persist depth instantiates).level
  | placeholder id arguments ih =>
    exact instantiates.1 _ (persist_replace
      (fun persist => ih persist depth instantiates.2) persist)
  | classified sort term ihSort ihTerm =>
    have sortHalts := ihSort persist depth instantiates.1
    have termHalts := ihTerm persist depth instantiates.2
    exact .of_two_parts trivial rfl sortHalts termHalts
  | set bound ih => exact (ih persist depth instantiates).set
  | sortPlaceholder id arguments ih =>
    exact instantiates.1 _ (persist_replace
      (fun persist => ih persist depth instantiates.2) persist)
  | lub constant atoms ih =>
    exact .lub ((Halts.iff_atomList _).1 (ih persist depth instantiates))
  | atom term offset rest ihTerm ihRest =>
    have termHalts := ihTerm persist depth instantiates.1
    have restHalts := ihRest persist depth instantiates.2
    exact .of_two_parts trivial rfl termHalts restHalts
  | terms first rest ihFirst ihRest =>
    have firstHalts := ihFirst persist depth instantiates.1
    have restHalts := ihRest persist depth instantiates.2
    exact .of_two_parts trivial rfl firstHalts restHalts
  | prop | sizeUniv | omega | noAtoms | noTerms => exact .of_no_parts trivial rfl

/-! ## Placeholders -/

/-- A placeholder that does not unfold halts. -/
theorem instantiates_of_not_solved {kind : Category} {id : Nat} (unsolved : ¬state.Solved kind id) :
    Instantiates state kind id := by
  have argumentsHalt : ∀ {arguments : Phrase .terms},
      (∀ argument ∈ arguments.toList, Persists state argument) →
      ∀ part ∈ ([⟨_, arguments⟩] : List (Sigma Phrase)), Halts state part.2 := by
    intro arguments persist
    refine List.forall_mem_singleton.2 ((Halts.iff_toList arguments).2 ?_)
    exact fun argument present => (persist argument present).halts
  cases kind with
  | term =>
    intro arguments persist
    have noTerm : ∀ solution, state.solution? id ≠ some (.term solution) :=
      fun solution solved => unsolved ⟨_, solved, rfl⟩
    have stops : unfoldHead? state (.placeholder id arguments) = .ok none :=
      unfoldHead?_eq_none_iff.2 (by simp [Phrase.head, noTerm])
    exact .of_stops stops (argumentsHalt persist)
  | sort =>
    intro arguments persist
    have stops : Stops state (.sortPlaceholder id arguments) :=
      fun solution solved => unsolved ⟨_, solved, rfl⟩
    exact .of_stops stops (argumentsHalt persist)
  | _ => trivial

theorem persists_assigned {arguments : List Term}
    (persist : ∀ argument ∈ arguments, Persists state argument) (index : Nat) :
    Persists state (Phrase.assigned arguments index) := by
  unfold Phrase.assigned
  split
  · rename_i argument found
    exact persist argument (List.mem_of_getElem? found)
  · exact persists_var _

/-- A placeholder halts if the placeholders in its solution do. -/
theorem instantiates_of_solution {id : Nat} {solution : Solution}
    (bodiless : ∀ path, state.signature.body? path = none)
    (solved : state.solution? id = some solution)
    (instantiates : solution.phrase.Uses (Instantiates state)) :
    Instantiates state solution.category id := by
  cases solution with
  | term value =>
    intro arguments persist
    have unfolded : unfoldHead? state (.placeholder id arguments) =
        (checked (value.substitute? arguments.toList)).map some := by
      simp only [unfoldHead?, Phrase.head, solved]
      cases checked (value.substitute? arguments.toList) <;> rfl
    cases substituted : value.substitute? arguments.toList with
    | none =>
      rw [substituted] at unfolded
      exact .of_unfoldHead?_error unfolded
    | some result =>
      rw [substituted] at unfolded
      rw [Halts.iff_unfoldHead? unfolded, Phrase.eq_replace_of_substitute? substituted]
      exact halts_replace bodiless instantiates (persists_assigned persist)
  | sort value =>
    intro arguments persist
    have reduces : ∀ fuel, reduce state (fuel + 1) (.sortPlaceholder id arguments) =
        checked (value.substitute? arguments.toList) >>= reduce state fuel := by
      intro fuel
      simp only [reduce, solved]
    cases substituted : value.substitute? arguments.toList with
    | none =>
      rw [substituted] at reduces
      exact .of_error reduces rfl
    | some result =>
      rw [substituted] at reduces
      rw [Halts.iff_of_reduce reduces, Phrase.eq_replace_of_substitute? substituted]
      exact halts_replace bodiless instantiates (persists_assigned persist)

namespace State.Ordered

variable {admitted : Category → Nat → Prop} {rank : Nat → Nat}

/-- Placeholders that can be ranked halt. -/
theorem instantiates (ordered : state.Ordered admitted rank)
    (bodiless : ∀ path, state.signature.body? path = none) (kind : Category) (id : Nat) :
    Instantiates state kind id := by
  induction number : rank id using Nat.strong_induction_on generalizing kind id with
  | _ number ih =>
    subst number
    by_cases solved : state.Solved kind id
    · obtain ⟨solution, found, rfl⟩ := solved
      refine instantiates_of_solution bodiless found ?_
      refine (ordered.solutions found).mono fun {kind other} facts => ?_
      by_cases otherSolved : state.Solved kind other
      · exact ih (rank other) (facts.2 otherSolved) kind other rfl
      · exact instantiates_of_not_solved otherSolved
    · exact instantiates_of_not_solved solved

/-- Every phrase halts where no function has a body and the placeholders can be ranked. -/
theorem halts (ordered : state.Ordered admitted rank)
    (bodiless : ∀ path, state.signature.body? path = none) (phrase : Phrase category) :
    Halts state phrase := by
  rw [← Phrase.replace_eq_self phrase fun _ => rfl]
  exact halts_replace bodiless (Phrase.uses_of_forall (ordered.instantiates bodiless) phrase)
    persists_var

end State.Ordered

/-- In every state that comparisons lead to, the solutions do not depend on each other in a circle,
if every placeholder is used as a term only or as a sort only.  Reduction and normalisation end on
every phrase, if no function has a body. -/
theorem instantiation_ends
    {admitted : Category → Nat → Prop}
    {state : State}
    (arises : Arises admitted state) :
    ((∀ {kind kind' id}, admitted kind id → admitted kind' id → kind = kind') →
      ∀ id, ¬Relation.TransGen state.Depends id id) ∧
    ((∀ path, state.signature.body? path = none) →
      ∀ {category : Category} (phrase : Phrase category),
        (Terminates fun fuel => reduce state fuel phrase) ∧
          Terminates fun fuel => normalise state fuel phrase) := by
  obtain ⟨rank, ordered⟩ := arises.orderable
  constructor
  · intro oneKind id
    exact ordered.acyclic oneKind id
  · intro bodiless category phrase
    have halts := ordered.halts bodiless phrase
    exact ⟨halts.reduce, halts.normalise⟩

theorem body?_initial (path : Path) : State.initial.signature.body? path = none := by
  simp only [Signature.body?, Signature.definition?, State.initial, State.builtins, List.foldl,
    PathMap.get?_insert, PathMap.get?_empty]
  split_ifs <;> rfl

/-- The solution of a placeholder copies its argument, which is the placeholder itself. -/
theorem instantiation_ends_copied :
    let hole (argument : Term) : Term := .placeholder 0 (.terms argument .noTerms)
    let copied (argument : Term) : Term := .app (.app (.const Path.size) argument {}) argument {}
    let opened := State.initial.addPlaceholder 1 (.term (.univ .sizeUniv))
    let state := (((Request.equalTerm (hole (.var 0)) (copied (.var 0))).computation 10 1).run
      opened).state
    Arises (fun kind _ => kind = .term) state ∧
      state.solution? 0 = some (.term (copied (.var 0))) ∧
      (∀ path, state.signature.body? path = none) ∧
      (∀ id, ¬Relation.TransGen state.Depends id id) ∧
      (Terminates fun fuel => normalise state fuel (hole (hole (.var 0)))) ∧
      normalise state 10 (hole (hole (.var 0))) = .ok (copied (copied (.var 0))) := by
  intro hole copied opened state
  have opens : Arises (fun kind _ => kind = .term) opened := by
    refine .adds (.fresh rfl fun found => ?_) 1 (.term (.univ .sizeUniv))
    simp [body?_initial] at found
  have arises : Arises (fun kind _ => kind = .term) state :=
    .ends opens (.equalTerm (hole (.var 0)) (copied (.var 0)))
      ⟨⟨1, rfl, Nat.one_pos, trivial⟩, 1, ⟨trivial, Nat.one_pos⟩, Nat.one_pos⟩ 10 1
  have solved : state.solution? 0 = some (.term (copied (.var 0))) := by cbv
  have sameSignature : state.signature = State.initial.signature := by cbv
  have bodiless : ∀ path, state.signature.body? path = none := sameSignature ▸ body?_initial
  exact ⟨arises, solved, bodiless,
    (instantiation_ends arises).1 fun isTerm isTerm' => isTerm.trans isTerm'.symm,
    ((instantiation_ends arises).2 bodiless (hole (hole (.var 0)))).2, by cbv⟩

/-- Two placeholders for sorts depend on each other, after the first was used as a term. -/
theorem dependency_circle :
    let opened := (State.initial.addPlaceholder 0 (.sort false)).addPlaceholder 0 (.sort false)
    let asTerm := (((Request.equalTerm (.placeholder 0 .noTerms)
      (.univ (.sortPlaceholder 1 .noTerms))).computation 10 0).run opened).state
    let asSort := (((Request.equalSort (.sortPlaceholder 1 .noTerms)
      (.sortPlaceholder 0 .noTerms)).computation 10 0).run asTerm).state
    Arises (fun _ _ => True) asSort ∧ Relation.TransGen asSort.Depends 0 0 := by
  intro opened asTerm asSort
  have uses : ∀ {category : Category} (phrase : Phrase category), phrase.Uses fun _ _ => True :=
    Phrase.uses_of_forall fun _ _ => trivial
  have opens : Arises (fun _ _ => True) opened :=
    .adds (.adds (.fresh rfl fun _ => uses _) 0 (.sort false)) 0 (.sort false)
  have arises : Arises (fun _ _ => True) asSort :=
    .ends (.ends opens (.equalTerm _ _) ⟨uses _, uses _⟩ 10 0) (.equalSort _ _)
      ⟨uses _, uses _⟩ 10 0
  have first : asSort.solution? 0 = some (.term (.univ (.sortPlaceholder 1 .noTerms))) := by cbv
  have second : asSort.solution? 1 = some (.sort (.sortPlaceholder 0 .noTerms)) := by cbv
  exact ⟨arises, .tail (.single ⟨_, first, rfl⟩) ⟨_, second, rfl⟩⟩

end Families
