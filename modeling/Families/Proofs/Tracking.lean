import Families.Proofs.Renormalisation
import Families.Proofs.Substitutivity

/-!
# Evaluation of renamed phrases

A renaming that keeps the order of variables commutes with reduction and with normalisation, call by
call and with the same fuel.  Larger indices may leave the range of words where smaller ones do not,
and this is the only difference.
-/

namespace Families

variable {targets : Nat → Nat}
variable {arguments : List Term}

/-! ## Computations side by side -/

/-- The second computation ends like the first, with a related answer or for the same reason, unless
a number leaves the range of words in it. -/
inductive Tracks {α β : Type} (related : α → β → Prop) : Except Halt α → Except Halt β → Prop where
  | answers {value : α} {value' : β} : related value value' →
      Tracks related (.ok value) (.ok value')
  | halts (reason : Halt) : Tracks related (.error reason) (.error reason)
  /-- A number leaves the range of words in the second. -/
  | overflows (first : Except Halt α) : Tracks related first (.error .overflow)

namespace Tracks

variable {α β α' β' : Type} {related : α → β → Prop} {related' : α' → β' → Prop}
variable {first : Except Halt α} {second : Except Halt β}

theorem bind {next : α → Except Halt α'} {next' : β → Except Halt β'}
    (tracks : Tracks related first second)
    (continues : ∀ {value value'}, first = .ok value → related value value' →
      Tracks related' (next value) (next' value')) :
    Tracks related' (first >>= next) (second >>= next') := by
  cases tracks with
  | answers holds => exact continues rfl holds
  | halts reason => exact .halts reason
  | overflows first => exact .overflows _

theorem mono {stronger : α → β → Prop} (tracks : Tracks stronger first second)
    (weaker : ∀ {value value'}, first = .ok value → stronger value value' → related value value') :
    Tracks related first second := by
  cases tracks with
  | answers holds => exact .answers (weaker rfl holds)
  | halts reason => exact .halts reason
  | overflows first => exact .overflows first

/-- Results that are absent only for words. -/
theorem checked {value? : Option α} {value'? : Option β}
    (present : ∀ {value'}, value'? = some value' → ∃ value, value? = some value ∧
      related value value') :
    Tracks related (Families.checked value?) (Families.checked value'?) := by
  cases value'? with
  | none => exact .overflows _
  | some value' =>
    obtain ⟨value, rfl, holds⟩ := present rfl
    exact .answers holds

/-- Results that are absent together. -/
theorem checked_map (value? : Option α) (change : α → β) :
    Tracks (fun value value' => value' = change value) (Families.checked value?)
      (Families.checked (value?.map change)) := by
  cases value? with
  | none => exact .overflows _
  | some value => exact .answers rfl

/-- Folds over related lists. -/
theorem foldlM {γ δ : Type} {alike : γ → δ → Prop} {step : α → γ → Except Halt α}
    {step' : β → δ → Except Halt β} :
    ∀ {list : List γ} {list' : List δ} {start : α} {start' : β},
      List.Forall₂ alike list list' →
      (∀ {element element' value value'}, alike element element' → related value value' →
        Tracks related (step value element) (step' value' element')) →
      related start start' →
      Tracks related (list.foldlM step start) (list'.foldlM step' start')
  | _, _, _, _, .nil, _, holds => .answers holds
  | _, _, _, _, .cons first rest, steps, holds => by
    simp only [List.foldlM_cons]
    exact (steps first holds).bind fun _ holds => foldlM rest steps holds

end Tracks

/-! ## Substitutions that leave the words -/

namespace Phrase

variable {category : Category}

/-- A traversal of a phrase is defined if one of the renamed phrase is, with images that are defined
less often. -/
theorem exists_traverse_of_rename {image image' : (depth index : Nat) → Option Term}
    (related : Nat → (Nat → Nat) → Prop)
    (entered : ∀ {depth inner}, related depth inner → related (depth + 1) (underBinder inner))
    (images : ∀ {depth inner}, related depth inner → ∀ {index term'},
      image' depth (inner index) = some term' → ∃ term, image depth index = some term)
    {depth : Nat} {inner : Nat → Nat} {phrase result' : Phrase category}
    (start : related depth inner)
    (traversed : (phrase.rename inner).traverse image' depth = some result') :
    ∃ result, phrase.traverse image depth = some result := by
  unfold rename at traversed
  induction phrase generalizing depth inner with
  | var index => exact images start traversed
  | _ =>
    simp only [mapVariables, traverse, Option.bind_eq_bind, Option.bind_eq_some_iff,
      Option.pure_def, Option.some.injEq] at traversed ⊢
    grind

/-- A phrase can be lifted if it can after a renaming upwards, by as much or more. -/
theorem exists_lift?_of_rename {shift shift' : Nat} {phrase result' : Phrase category}
    (upwards : ∀ index, index ≤ targets index) (less : shift ≤ shift')
    (lifted : (phrase.rename targets).lift? shift' 0 = some result') :
    ∃ result, phrase.lift? shift 0 = some result := by
  unfold lift? at lifted ⊢
  split
  · exact ⟨phrase, rfl⟩
  · rw [if_neg (by omega)] at lifted
    refine exists_traverse_of_rename (fun _ inner => ∀ index, index ≤ inner index) ?_ ?_ upwards
      lifted
    · intro _ inner upwards index
      cases index with
      | zero => exact Nat.zero_le _
      | succ index => exact Nat.succ_le_succ (upwards index)
    · intro depth inner upwards index term' found
      have := upwards index
      simp only [liftedVariable?, word?] at found ⊢
      grind

/-- A substitution is defined if that of the renamed terms is. -/
theorem exists_substitute?_of_rename {phrase result' : Phrase category}
    (upwards : ∀ index, index ≤ targets index)
    (substituted : phrase.substitute? (arguments.map (·.rename targets)) = some result') :
    ∃ result, phrase.substitute? arguments = some result := by
  rw [← rename_eq_self phrase (fun index => rfl)] at substituted
  refine exists_traverse_of_rename (fun _ inner => ∀ index, inner index = index) ?_ ?_ ?_
    substituted
  · intro _ inner same index
    cases index with
    | zero => rfl
    | succ index => exact congrArg Nat.succ (same index)
  · intro depth inner same index term' found
    rw [same] at found
    unfold substitutedVariable? at found ⊢
    split at found
    · rw [if_pos ‹_›]
      rw [List.getElem?_map] at found
      cases argument? : arguments[index - depth]? with
      | none => exact ⟨_, rfl⟩
      | some argument =>
        rw [argument?] at found
        exact exists_lift?_of_rename upwards le_rfl found
    · rw [if_neg ‹_›]
      exact ⟨_, rfl⟩
  · exact fun _ => rfl

/-- An instance is defined if that of the renamed phrases is. -/
theorem exists_instantiate?_of_rename {argument : Term} {phrase result' : Phrase category}
    (upwards : ∀ index, index ≤ targets index)
    (instantiated :
      (phrase.rename (underBinder targets)).instantiate? (argument.rename targets) = some result') :
    ∃ result, phrase.instantiate? argument = some result := by
  refine exists_traverse_of_rename (RenamesUnder (underBinder targets)) (fun inside => inside.succ)
    ?_ (.zero _) instantiated
  intro depth inner inside index term' found
  unfold instantiatedVariable? at found ⊢
  split
  · rename_i isArgument
    subst isArgument
    have fixed : inner index = index := by simp [inside index, underBinder]
    rw [fixed, if_pos rfl] at found
    exact exists_lift?_of_rename upwards le_rfl found
  · split <;> exact ⟨_, rfl⟩

end Phrase

/-! ## Levels -/

/-- Renames the variables of an atom. -/
def Atom.rename (targets : Nat → Nat) (atom : Atom) : Atom :=
  ⟨atom.term.rename targets, atom.offset⟩

namespace Level

theorem ofAtoms_rename (targets : Nat → Nat) :
    ∀ atoms : List Atom,
      (Phrase.ofAtoms atoms).rename targets = Phrase.ofAtoms (atoms.map (Atom.rename targets))
  | [] => rfl
  | first :: rest =>
    congrArg (Phrase.atom (first.term.rename targets) first.offset) (ofAtoms_rename targets rest)

theorem ofParts_rename (targets : Nat → Nat) (constant : Nat) (atoms : List Atom) :
    (ofParts constant atoms).rename targets = ofParts constant (atoms.map (Atom.rename targets)) :=
  congrArg (Phrase.lub constant) (ofAtoms_rename targets atoms)

theorem insertAtom_rename (increasing : StrictMono targets) (atom : Atom) (atoms : List Atom) :
    insertAtom (atom.rename targets) (atoms.map (Atom.rename targets)) =
      (insertAtom atom atoms).map (Atom.rename targets) := by
  induction atoms with
  | nil => rfl
  | cons first rest ih =>
    have order : compare (atom.rename targets).term (first.rename targets).term =
        compare atom.term first.term :=
      Phrase.compare_rename increasing _ _
    rw [List.map_cons, insertAtom, insertAtom, order]
    cases compare atom.term first.term with
    | lt => rfl
    | eq => rfl
    | gt => exact congrArg (first.rename targets :: ·) ih

theorem canonical_rename (increasing : StrictMono targets) (constant : Nat) (atoms : List Atom) :
    canonical constant (atoms.map (Atom.rename targets)) =
      (canonical constant atoms).rename targets := by
  have inserted : (atoms.map (Atom.rename targets)).foldr insertAtom [] =
      (atoms.foldr insertAtom []).map (Atom.rename targets) := by
    induction atoms with
    | nil => rfl
    | cons first rest ih =>
      rw [List.map_cons, List.foldr_cons, ih, insertAtom_rename increasing,
        List.foldr_cons]
  simp only [canonical, inserted, ofParts_rename, List.any_map]
  rfl

theorem join_rename (increasing : StrictMono targets) (left right : Level) :
    join (left.rename targets) (right.rename targets) = (join left right).rename targets := by
  unfold join
  rw [constant_rename, constant_rename, ← canonical_rename increasing, List.map_append]
  exact congrArg₂ (fun first second => canonical _ (first ++ second)) (atoms_rename targets left)
    (atoms_rename targets right)

theorem raiseAtom?_rename (targets : Nat → Nat) (by_ : Nat) (atom : Atom) :
    raiseAtom? by_ (atom.rename targets) = (raiseAtom? by_ atom).map (Atom.rename targets) := by
  unfold raiseAtom? Atom.rename
  cases word? (atom.offset + by_) <;> rfl

theorem mapM_raiseAtom?_rename (targets : Nat → Nat) (by_ : Nat) (atoms : List Atom) :
    (atoms.map (Atom.rename targets)).mapM (raiseAtom? by_) =
      (atoms.mapM (raiseAtom? by_)).map (List.map (Atom.rename targets)) := by
  induction atoms with
  | nil => rfl
  | cons first rest ih =>
    rw [List.map_cons, List.mapM_cons, List.mapM_cons, ih, raiseAtom?_rename]
    cases raiseAtom? by_ first with
    | none => rfl
    | some raised => cases rest.mapM (raiseAtom? by_) <;> rfl

theorem raise?_rename (increasing : StrictMono targets) (level : Level) (by_ : Nat) :
    raise? (level.rename targets) by_ = (raise? level by_).map (·.rename targets) := by
  have renamed : atoms (level.rename targets) = (atoms level).map (Atom.rename targets) :=
    atoms_rename targets level
  unfold raise?
  rw [constant_rename, renamed, mapM_raiseAtom?_rename, List.isEmpty_map]
  cases (atoms level).mapM (raiseAtom? by_) with
  | none => split <;> simp
  | some atoms => split <;> simp [canonical_rename increasing]

end Level

/-- Atoms with renamed terms stand for renamed levels. -/
theorem tracks_reducedAtom (increasing : StrictMono targets) (term : Term) (offset : Nat) :
    Tracks (fun level level' => level' = level.rename targets) (reducedAtom term offset)
      (reducedAtom (term.rename targets) offset) := by
  cases term with
  | level inner =>
    have tracks := Tracks.checked_map (Level.raise? inner offset) (·.rename targets)
    rwa [← Level.raise?_rename increasing] at tracks
  | _ => exact .answers rfl

/-! ## Reduction -/

namespace Phrase

theorem rename_applyTo (targets : Nat → Nat) (function : Term) (arguments : List (ArgInfo × Term)) :
    (function.applyTo arguments).rename targets = (function.rename targets).applyTo
      (arguments.map fun argument => (argument.1, argument.2.rename targets)) := by
  induction arguments generalizing function with
  | nil => rfl
  | cons first rest ih => exact ih _

end Phrase

section Reduction

variable {state : State} {category : Category} {depth fuel : Nat}
variable {phrase : Phrase category}

theorem tracks_substitute? (increasing : StrictMono targets)
    (below : phrase.Below arguments.length) :
    Tracks (fun value value' => value' = value.rename targets)
      (checked (phrase.substitute? arguments))
      (checked (phrase.substitute? (arguments.map (·.rename targets)))) := by
  refine .checked fun {result'} substituted => ?_
  obtain ⟨result, isResult⟩ := Phrase.exists_substitute?_of_rename (fun _ => increasing.le_apply)
    substituted
  refine ⟨result, isResult, ?_⟩
  rw [Phrase.eq_replace_of_substitute? substituted, Phrase.eq_replace_of_substitute? isResult,
    below.rename_replace_assigned]

theorem tracks_unfoldHead? {term : Term} (increasing : StrictMono targets)
    (wellScoped : state.WellScoped) (inScope : term.Scoped state.Fits depth) :
    Tracks (fun next? next'? => next'? = next?.map (·.rename targets)) (unfoldHead? state term)
      (unfoldHead? state (term.rename targets)) := by
  have headInScope := ((Phrase.scoped_iff_arguments term).1 inScope).1
  have renamedHead := Phrase.head_rename targets term
  have renamedArguments := Phrase.arguments_rename targets term
  cases isHead : term.head with
  | placeholder id arguments =>
    rw [isHead] at renamedHead headInScope
    replace renamedHead : (term.rename targets).head = .placeholder id (arguments.rename targets) :=
      renamedHead
    cases solved : state.solution? id with
    | none =>
      simp only [unfoldHead?, isHead, renamedHead, solved]
      exact .answers rfl
    | some solution =>
      obtain ⟨value, rfl, valueInScope⟩ := wellScoped.termSolution headInScope.1 solved
      simp only [unfoldHead?, isHead, renamedHead, solved, Phrase.toList_rename, renamedArguments]
      refine (tracks_substitute? increasing valueInScope.below).bind ?_
      rintro value' _ _ rfl
      exact .answers (congrArg some (Phrase.rename_applyTo _ _ _).symm)
  | const path =>
    rw [isHead] at renamedHead
    replace renamedHead : (term.rename targets).head = .const path := renamedHead
    simp only [unfoldHead?, isHead, renamedHead, renamedArguments, List.length_map]
    split
    · rename_i arity body declared
      have bodyInScope : body.Scoped state.Fits arity := (wellScoped.definition declared).2
      split
      · rename_i enough
        have below : body.Below ((term.arguments.take arity).reverse.map (·.2)).length := by
          simpa [enough] using bodyInScope.below
        have tracks := tracks_substitute? increasing below
        rw [List.map_map] at tracks
        rw [← List.map_take, ← List.map_drop, ← List.map_reverse, List.map_map]
        refine tracks.bind ?_
        rintro value' _ _ rfl
        exact .answers (congrArg some (Phrase.rename_applyTo _ _ _).symm)
      · exact .answers rfl
    · exact .answers rfl
  | var | app | pi | univ | level =>
    rw [isHead] at renamedHead
    simp only [unfoldHead?, isHead, show (term.rename targets).head = _ from renamedHead]
    exact .answers rfl

/-- Reduction commutes with a renaming that keeps the order of variables. -/
theorem tracks_reduce (increasing : StrictMono targets) (wellScoped : state.WellScoped)
    (inScope : phrase.Scoped state.Fits depth) :
    Tracks (fun result result' => result' = result.rename targets) (reduce state fuel phrase)
      (reduce state fuel (phrase.rename targets)) := by
  induction fuel generalizing category phrase with
  | zero => exact .halts .exhausted
  | succ fuel ih =>
    cases phrase with
    | univ part | level part | set part =>
      have partInScope : part.Scoped state.Fits depth := inScope
      refine (ih partInScope).bind ?_
      rintro part _ _ rfl
      exact .answers rfl
    | const | app | placeholder =>
      refine (tracks_unfoldHead? increasing wellScoped inScope).bind ?_
      rintro next? _ unfolded rfl
      cases next? with
      | none => exact .answers rfl
      | some next =>
        exact ih ((unfoldHead?_eq_some_iff.1 unfolded).unfolds wellScoped inScope).2
    | sortPlaceholder id arguments =>
      rw [show (Phrase.sortPlaceholder id arguments).rename targets =
        .sortPlaceholder id (arguments.rename targets) from rfl]
      simp only [reduce, Phrase.toList_rename]
      split
      · rename_i solution solved
        obtain ⟨_, ⟨⟩, solutionInScope⟩ := wellScoped.sortSolution inScope.1 solved
        refine (tracks_substitute? increasing solutionInScope.below).bind ?_
        rintro sort _ substituted rfl
        exact ih (solutionInScope.substitute?
          ((Phrase.scoped_iff_toList arguments).1 inScope.2) (checked_eq_ok_iff.1 substituted))
      · exact .answers rfl
    | lub constant atoms =>
      have atomsInScope := (Phrase.scoped_iff_atomList atoms).1 inScope
      have renamed : List.Forall₂ (fun atom atom' => atom ∈ atoms.atomList ∧
          atom' = atom.rename targets) atoms.atomList (atoms.rename targets).atomList := by
        rw [Phrase.atomList_rename, List.forall₂_map_right_iff, List.forall₂_same]
        exact fun atom present => ⟨present, rfl⟩
      refine Tracks.foldlM renamed ?_ (Level.ofParts_rename targets constant []).symm
      rintro atom _ joined _ ⟨present, rfl⟩ rfl
      refine (ih (atomsInScope atom present)).bind ?_
      rintro term _ _ rfl
      refine (tracks_reducedAtom increasing term atom.offset).bind ?_
      rintro part _ _ rfl
      exact .answers (Level.join_rename increasing joined part)
    | _ => exact .answers rfl

/-! ## Normalisation -/

/-- Rebuilding commutes with a renaming if the treatment of the parts does. -/
theorem tracks_rebuild
    {part : {category : Category} → Phrase category → Except Halt (Phrase category)}
    {phrase : Phrase category} (increasing : StrictMono targets)
    (inScope : phrase.Scoped state.Fits depth)
    (parts : ∀ {category : Category} {phrase : Phrase category} {depth : Nat}
      {targets : Nat → Nat}, StrictMono targets → phrase.Scoped state.Fits depth →
      Tracks (fun result result' => result' = result.rename targets) (part phrase)
        (part (phrase.rename targets))) :
    Tracks (fun result result' => result' = result.rename targets) (rebuild part phrase)
      (rebuild part (phrase.rename targets)) := by
  cases phrase with
  | app | classified | atom | terms =>
    refine (parts increasing inScope.1).bind ?_
    rintro first _ _ rfl
    refine (parts increasing inScope.2).bind ?_
    rintro second _ _ rfl
    exact .answers rfl
  | pi =>
    refine (parts increasing inScope.1).bind ?_
    rintro domain _ _ rfl
    refine (parts (Phrase.strictMono_underBinder increasing) inScope.2).bind ?_
    rintro codomain _ _ rfl
    exact .answers rfl
  | univ only | level only | set only =>
    have onlyInScope : only.Scoped state.Fits depth := inScope
    refine (parts increasing onlyInScope).bind ?_
    rintro result _ _ rfl
    exact .answers rfl
  | placeholder | sortPlaceholder =>
    refine (parts increasing inScope.2).bind ?_
    rintro arguments _ _ rfl
    exact .answers rfl
  | lub constant atoms =>
    have atomsInScope : atoms.Scoped state.Fits depth := inScope
    refine (parts increasing atomsInScope).bind ?_
    rintro atoms' _ _ rfl
    refine .answers ?_
    rw [← Level.canonical_rename increasing, Phrase.atomList_rename]
    rfl
  | _ => exact .answers rfl

/-- Normalisation commutes with a renaming that keeps the order of variables. -/
theorem tracks_normalise (increasing : StrictMono targets) (wellScoped : state.WellScoped)
    (inScope : phrase.Scoped state.Fits depth) :
    Tracks (fun result result' => result' = result.rename targets) (normalise state fuel phrase)
      (normalise state fuel (phrase.rename targets)) := by
  induction fuel generalizing category phrase depth targets with
  | zero => exact .halts .exhausted
  | succ fuel ih =>
    refine (tracks_reduce increasing wellScoped inScope).bind ?_
    rintro reduced _ isReduced rfl
    exact tracks_rebuild increasing (reduces_of_reduce wellScoped isReduced inScope).2
      ih

end Reduction

/-! ## Substitution, lifting and normal forms -/

theorem Phrase.strictMono_raised (shift cutoff : Nat) : StrictMono (raised shift cutoff) := by
  intro left right less
  unfold raised
  split <;> split <;> omega

/-- A phrase of a reachable state may be normalised before a substitution of all its variables: the
normal form after it is the same.  And a lifted phrase normalises as the phrase does, to the lifted
normal form, unless an index leaves the range of words. -/
theorem normalise_commutes
    {checker : Checker}
    {category : Category}
    {phrase : Phrase category}
    {depth : Nat}
    (reachable : Reachable checker)
    (inScope : phrase.Scoped checker.state.Fits depth) :
    (∀ {fuel fuel' fuel'' width : Nat} {arguments : List Term}
      {normal early direct earlyNormal directNormal : Phrase category},
      depth ≤ arguments.length →
      (∀ argument ∈ arguments, argument.Scoped checker.state.Fits width) →
      normalise checker.state fuel phrase = .ok normal →
      normal.substitute? arguments = some early →
      phrase.substitute? arguments = some direct →
      normalise checker.state fuel' early = .ok earlyNormal →
      normalise checker.state fuel'' direct = .ok directNormal →
      earlyNormal = directNormal) ∧
    ∀ {shift cutoff : Nat} {lifted : Phrase category},
      phrase.lift? shift cutoff = some lifted →
      (∀ {fuel fuel' : Nat} {normal liftedNormal normalLifted : Phrase category},
        normalise checker.state fuel phrase = .ok normal →
        normal.lift? shift cutoff = some normalLifted →
        normalise checker.state fuel' lifted = .ok liftedNormal →
        liftedNormal = normalLifted) ∧
      ∀ fuel, Tracks (fun normal liftedNormal =>
        liftedNormal = normal.rename (Phrase.raised shift cutoff))
        (normalise checker.state fuel phrase) (normalise checker.state fuel lifted) := by
  have wellScoped := reachable.wellScoped.state
  refine ⟨?_, ?_⟩
  · intro fuel fuel' fuel'' width arguments normal early direct earlyNormal directNormal enough
      argumentsInScope normalised isEarly isDirect earlyNormalised directNormalised
    have phraseInScope := inScope.mono id enough
    obtain ⟨normalises, normalInScope⟩ :=
      normalises_of_normalise wellScoped normalised phraseInScope
    have hasEarly := (normalises_of_normalise wellScoped earlyNormalised
      (normalInScope.substitute? argumentsInScope isEarly)).1.hasNormalForm
    have hasDirect := (normalises_of_normalise wellScoped directNormalised
      (phraseInScope.substitute? argumentsInScope isDirect)).1.hasNormalForm
    rw [Phrase.eq_replace_of_substitute? isDirect] at hasDirect
    rw [Phrase.eq_replace_of_substitute? isEarly] at hasEarly
    exact hasEarly.deterministic (normalises.hasNormalForm_replace hasDirect)
  · intro shift cutoff lifted isLifted
    have liftedInScope := inScope.lift? isLifted
    rw [Phrase.eq_rename_of_lift? isLifted] at liftedInScope ⊢
    refine ⟨?_, fun fuel => tracks_normalise
      (Phrase.strictMono_raised shift cutoff) wellScoped inScope⟩
    intro fuel fuel' normal liftedNormal normalLifted normalised isNormalLifted liftedNormalised
    have hasNormal := (normalises_of_normalise wellScoped normalised inScope).1.hasNormalForm
    have hasLifted :=
      (normalises_of_normalise wellScoped liftedNormalised liftedInScope).1.hasNormalForm
    rw [Phrase.eq_rename_of_lift? isNormalLifted]
    exact hasLifted.deterministic (hasNormal.rename (Phrase.strictMono_raised shift cutoff))

/-- The larger of a level and of the level above a point, each with a variable in it.  After the
substitution the one absorbs the other, whether or not the level above the point is unfolded
before. -/
theorem normalise_commutes_above :
    let above (term : Term) : Term := .app (.const ⟨7⟩) term {}
    let height (term : Term) : Term := .app (.const ⟨5⟩) term {}
    let larger (left right : Term) (offset : Nat) : Level :=
      .lub 0 (.atom left 0 (.atom right offset .noAtoms))
    let point : Term := .const ⟨3⟩
    normalise doubled.state 40 (larger (.var 0) (above (.var 1)) 0) =
        .ok (larger (.var 0) (height (.var 1)) 1) ∧
      normalise doubled.state 40 (larger (height point) (height point) 1) =
        normalise doubled.state 40 (larger (height point) (above point) 0) ∧
      normalise doubled.state 40 (larger (.var 0) (above (.var 4)) 0) =
        .ok (larger (.var 0) (height (.var 4)) 1) := by
  intro above height larger point
  have reachable : Reachable doubled := .ends (.initial {} .patterns 40) (.check doubling) rfl
  have inScope : (larger (.var 0) (above (.var 1)) 0).Scoped doubled.state.Fits 2 :=
    ⟨Nat.two_pos, ⟨trivial, Nat.one_lt_two⟩, trivial⟩
  have argumentsInScope : ∀ argument ∈ [height point, point],
      argument.Scoped doubled.state.Fits 0 := by
    simp [height, point, Phrase.Scoped]
  have normalised : normalise doubled.state 40 (larger (.var 0) (above (.var 1)) 0) =
      .ok (larger (.var 0) (height (.var 1)) 1) := by decide +kernel
  have early : normalise doubled.state 40 (larger (height point) (height point) 1) =
      .ok (.lub 0 (.atom (height point) 1 .noAtoms)) := by decide +kernel
  have direct : ∃ result, normalise doubled.state 40 (larger (height point) (above point) 0) =
      .ok result := ⟨.lub 0 (.atom (height point) 1 .noAtoms), by decide +kernel⟩
  have lifted : ∃ result, normalise doubled.state 40 (larger (.var 0) (above (.var 4)) 0) =
      .ok result := ⟨larger (.var 0) (height (.var 4)) 1, by decide +kernel⟩
  obtain ⟨directNormal, isDirect⟩ := direct
  obtain ⟨liftedNormal, isLifted⟩ := lifted
  obtain ⟨substitutes, lifts⟩ := normalise_commutes reachable inScope
  have same := @substitutes 40 40 40 0 [height point, point] _ _ _ _ _ le_rfl argumentsInScope
    normalised (by decide +kernel) (by decide +kernel) early isDirect
  have normalLifted : (larger (.var 0) (height (.var 1)) 1).lift? 3 1 =
      some (larger (.var 0) (height (.var 4)) 1) := by decide +kernel
  have raised := (@lifts 3 1 _ (by decide +kernel)).1 normalised normalLifted isLifted
  exact ⟨normalised, by rw [early, isDirect, same], by rw [isLifted, raised]⟩

end Families
