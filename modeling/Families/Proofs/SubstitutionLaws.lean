import Families.Proofs.Scope

/-!
# The laws of substitution

Lifting, instantiation, parallel substitution and the removal of binders are separate operations,
and free variables are collected by one more.  The laws that connect them hold wherever no number
leaves the range of words, which is so whenever all numbers that occur are small enough.
-/

namespace Families

/-! ## Free variables -/

theorem Positions.mem_ofList {number : Nat} {numbers : List Nat} :
    number ∈ (ofList numbers).toList ↔ number ∈ numbers := by
  have entered : ∀ (positions : Positions) (numbers : List Nat),
      number ∈ numbers.foldl insert positions ↔ number ∈ positions ∨ number ∈ numbers := by
    intro positions numbers
    induction numbers generalizing positions with
    | nil => simp
    | cons first rest ih =>
      rw [List.foldl_cons, ih, mem_insert, List.mem_cons]
      tauto
  have absent : number ∉ empty := List.not_mem_nil
  exact (entered empty numbers).trans (by simp [absent])

namespace Phrase

variable {category : Category} {bound bound' depth offset number : Nat}
  {phrase result : Phrase category}
variable {arguments : List Term} {counted : Occurrence} {left right : Nat → Term}

/-- The substitutions agree on the variables of so many binders, and on those from outside that
count. -/
def AgreesUnder (counts : Nat → Prop) (binders : Nat) (left right : Nat → Term) : Prop :=
  ∀ index, (binders ≤ index → counts (index - binders)) → left index = right index

theorem AgreesUnder.up {counts : Nat → Prop} {binders : Nat}
    (agrees : AgreesUnder counts binders left right) :
    AgreesUnder counts (binders + 1) (up left) (up right) := by
  intro index bounded
  cases index with
  | zero => rfl
  | succ index =>
    refine congrArg (rename _) (agrees index fun outside => ?_)
    simpa using bounded (Nat.succ_le_succ outside)

theorem AgreesUnder.replace_eq {counts : Nat → Prop} {binders : Nat} {phrase : Phrase category}
    (agrees : AgreesUnder counts binders left right)
    (free : ∀ index ∈ phrase.freeFrom .anywhere binders, counts index) :
    phrase.replace left = phrase.replace right := by
  induction phrase generalizing binders left right with
  | var index =>
    refine agrees index fun outside => free _ ?_
    simp [freeFrom, outside]
  | pi name info domain codomain ihDomain ihCodomain =>
    refine congrArg₂ (pi name info) (ihDomain agrees fun index occurs => ?_)
      (ihCodomain agrees.up fun index occurs => ?_)
    · exact free index (List.mem_append_left _ occurs)
    · exact free index (List.mem_append_right _ occurs)
  | _ => grind [freeFrom, Phrase.replace, Phrase.mapVariables]

/-- Substitutions that agree on the free variables of a phrase have the same result. -/
theorem replace_congr_of_free {phrase : Phrase category}
    (same : ∀ index ∈ (phrase.freeVariables .anywhere).toList, left index = right index) :
    phrase.replace left = phrase.replace right := by
  have agrees : AgreesUnder (fun index => left index = right index) 0 left right :=
    fun index free => free (Nat.zero_le index)
  exact agrees.replace_eq fun index occurs => same index (Positions.mem_ofList.2 occurs)

/-- A substitution that keeps the free variables of a phrase keeps the phrase. -/
theorem replace_eq_self_of_free {images : Nat → Term}
    (same : ∀ index ∈ (phrase.freeVariables .anywhere).toList, images index = var index) :
    phrase.replace images = phrase :=
  (replace_congr_of_free same).trans (replace_eq_self phrase fun _ => rfl)

/-- The free variables of the result of a traversal are those of the images. -/
theorem mem_freeFrom_mapVariables {Env : Type} {enter : Env → Env} {image : Env → Nat → Term}
    {free : Nat → Prop} (related : Nat → Env → Nat → Prop)
    (entered : ∀ {depth env depth'}, related depth env depth' →
      related (depth + 1) (enter env) (depth' + 1))
    (images : ∀ {depth env depth'}, related depth env depth' → ∀ index,
      number ∈ (image env index).freeFrom counted depth' ↔ depth ≤ index ∧ free (index - depth))
    {depth' : Nat} {env : Env} (phrase : Phrase category) (start : related depth env depth') :
    number ∈ (phrase.mapVariables enter image env).freeFrom counted depth' ↔
      ∃ source ∈ phrase.freeFrom counted depth, free source := by
  induction phrase generalizing depth depth' env with
  | var index =>
    simp only [mapVariables, images start, freeFrom]
    split <;> simp_all
  | pi name info domain codomain ihDomain ihCodomain =>
    simp only [mapVariables, freeFrom, List.mem_append, ihDomain start, ihCodomain (entered start),
      or_and_right, exists_or]
  | _ =>
    simp only [mapVariables, freeFrom, List.mem_append]
    grind

/-- Binders above a phrase do not change its free variables. -/
theorem mem_freeFrom_rename_add (shift : Nat) (phrase : Phrase category) :
    number ∈ (phrase.rename (· + shift)).freeFrom counted shift ↔
      number ∈ phrase.freeFrom counted 0 := by
  refine (mem_freeFrom_mapVariables
    (fun depth inner depth' => RenamesUnder (· + shift) depth inner ∧ depth' = depth + shift)
    ?_ ?_ phrase ⟨.zero _, (Nat.zero_add shift).symm⟩).trans exists_eq_right'
  · rintro depth inner _ ⟨inside, rfl⟩
    exact ⟨inside.succ, by omega⟩
  · rintro depth inner _ ⟨inside, rfl⟩ index
    simp only [freeFrom, inside index]
    grind

/-- The free variables after a substitution are those of the terms for the free variables. -/
theorem mem_freeVariables_replace (images : Nat → Term) (phrase : Phrase category) :
    number ∈ ((phrase.replace images).freeVariables counted).toList ↔
      ∃ source ∈ (phrase.freeVariables counted).toList,
        number ∈ ((images source).freeVariables counted).toList := by
  simp only [freeVariables, Positions.mem_ofList]
  refine mem_freeFrom_mapVariables
    (fun depth inner depth' => ReplacesUnder images depth inner ∧ depth' = depth) ?_ ?_ phrase
    ⟨.zero _, rfl⟩
  · rintro _ inner depth ⟨inside, rfl⟩
    exact ⟨inside.succ, rfl⟩
  · rintro _ inner depth ⟨inside, rfl⟩ index
    rw [inside index]
    by_cases bounded : index < depth
    · rw [if_pos bounded]
      simp [freeFrom, bounded]
    · rw [if_neg bounded, mem_freeFrom_rename_add]
      simp [Nat.le_of_not_lt bounded]

/-- The free variables after a renaming are the new names of the free variables. -/
theorem mem_freeVariables_rename (targets : Nat → Nat) (phrase : Phrase category) :
    number ∈ ((phrase.rename targets).freeVariables counted).toList ↔
      ∃ source ∈ (phrase.freeVariables counted).toList, number = targets source := by
  rw [rename_eq_replace, mem_freeVariables_replace]
  refine exists_congr fun source => and_congr_right fun _ => ?_
  simp [freeVariables, Positions.mem_ofList, freeFrom]

/-! ## Removing binders -/

/-- A traversal that sends every variable of a renaming back undoes the renaming. -/
theorem traverse_rename_eq_some {image : (depth index : Nat) → Option Term}
    {targets inner : Nat → Nat}
    (images : ∀ {depth inner}, RenamesUnder targets depth inner → ∀ index,
      image depth (inner index) = some (var index))
    (phrase : Phrase category) (inside : RenamesUnder targets depth inner) :
    (phrase.rename inner).traverse image depth = some phrase := by
  unfold rename
  induction phrase generalizing depth inner with
  | var index => exact images inside index
  | pi name info domain codomain ihDomain ihCodomain =>
    simp [mapVariables, traverse, ihDomain inside, ihCodomain inside.succ]
  | _ => simp_all [mapVariables, traverse]

/-- Removing binders undoes lifting over them. -/
theorem strengthen?_eq_some_iff {count : Nat} :
    phrase.strengthen? count = some result ↔ phrase = result.rename (· + count) := by
  constructor
  · intro strengthened
    refine ((maps_of_traverse_eq_some strengthened).mapVariables_eq (RenamesUnder (· + count))
      (fun inside => inside.succ) ?_ (.zero _)).symm
    intro depth inner inside index term isImage
    simp only [strengthenedVariable?] at isImage
    split at isImage
    · split at isImage
      · cases isImage
      · obtain rfl := Option.some.inj isImage
        simp only [mapVariables, inside (index - count), var.injEq]
        rw [if_neg (by omega)]
        omega
    · obtain rfl := Option.some.inj isImage
      simp only [mapVariables, inside index, var.injEq]
      rw [if_pos (by omega)]
  · rintro rfl
    refine traverse_rename_eq_some ?_ result (.zero _)
    intro depth inner inside index
    simp only [strengthenedVariable?, inside index]
    by_cases bounded : index < depth
    · simp [bounded]
    · rw [if_neg bounded, if_pos (by omega), if_neg (by omega)]
      exact congrArg (fun index => some (var index)) (by omega)

/-- Binders can be removed exactly if none of their variables is free. -/
theorem isSome_strengthen?_iff {count : Nat} :
    (phrase.strengthen? count).isSome ↔
      ∀ index < count, index ∉ (phrase.freeVariables .anywhere).toList := by
  rw [Option.isSome_iff_exists]
  constructor
  · rintro ⟨result, strengthened⟩ index bounded present
    rw [strengthen?_eq_some_iff.1 strengthened, mem_freeVariables_rename] at present
    obtain ⟨source, _, rfl⟩ := present
    omega
  · intro absent
    refine ⟨phrase.rename (· - count), strengthen?_eq_some_iff.2 ?_⟩
    rw [rename_rename, rename_eq_replace]
    refine (replace_eq_self_of_free fun index present => congrArg var ?_).symm
    have := absent index
    grind

/-- Removing a variable commutes with renaming the others. -/
theorem strengthen?_rename (targets : Nat → Nat) (phrase : Phrase category) :
    (phrase.rename (underBinder targets)).strengthen? 1 =
      (phrase.strengthen? 1).map (·.rename targets) := by
  cases isStrengthened : phrase.strengthen? 1 with
  | some result =>
    rw [strengthen?_eq_some_iff.1 isStrengthened, rename_rename, Option.map_some]
    exact strengthen?_eq_some_iff.2 (rename_rename targets (· + 1) result).symm
  | none =>
    have missing : ¬(phrase.strengthen? 1).isSome := by simp [isStrengthened]
    have stillMissing : ¬((phrase.rename (underBinder targets)).strengthen? 1).isSome := by
      rw [isSome_strengthen?_iff] at missing ⊢
      refine fun absent => missing fun index bounded present => absent index bounded ?_
      obtain rfl := Nat.lt_one_iff.1 bounded
      exact (mem_freeVariables_rename _ _).2 ⟨0, present, rfl⟩
    simpa using stillMissing

/-! ## Room for the numbers -/

/-- The index of each variable and the number of binders above it are below the bound. -/
def Within (bound depth : Nat) (phrase : Phrase category) : Prop :=
  Maps (fun depth index term => depth < bound ∧ index < bound ∧ term = var index) depth phrase
    phrase

theorem within_var {index : Nat} (depthBounded : depth < bound) (indexBounded : index < bound) :
    (var index).Within bound depth :=
  .var ⟨depthBounded, indexBounded, rfl⟩

theorem Maps.mono {image image' : (depth index : Nat) → Term → Prop}
    (maps : Maps image depth phrase result)
    (more : ∀ {depth index term}, image depth index term → image' depth index term) :
    Maps image' depth phrase result := by
  induction maps with
  | var isImage => exact .var (more isImage)
  | _ => constructor <;> assumption

/-- A traversal succeeds if it does on all variables, and its result is within a bound if all images
are. -/
theorem Maps.exists_traverse {images : (depth index : Nat) → Term → Prop}
    {image : (depth index : Nat) → Option Term} (maps : Maps images depth phrase result)
    (succeeds : ∀ {depth index term}, images depth index term →
      ∃ term, image depth index = some term ∧ term.Within bound (offset + depth)) :
    ∃ result, phrase.traverse image depth = some result ∧ result.Within bound (offset + depth) := by
  unfold Within at *
  induction maps with
  | var isImage => exact succeeds isImage
  | _ =>
    simp only [traverse, Option.bind_eq_bind, Option.bind_eq_some_iff, Option.pure_def,
      Option.some.injEq]
    grind [Maps]

/-- Lifting succeeds where there is room for it. -/
theorem Within.exists_lift? (within : phrase.Within bound 0) (shift cutoff : Nat)
    (offsetRoom : offset ≤ shift) (room : bound + shift ≤ bound')
    (words : bound' ≤ wordLimit) (cutoffRoom : cutoff + bound ≤ wordLimit) :
    ∃ result, phrase.lift? shift cutoff = some result ∧ result.Within bound' offset := by
  unfold lift?
  split
  · obtain rfl : offset = 0 := by omega
    refine ⟨phrase, rfl, within.mono ?_⟩
    rintro depth index term ⟨depthBounded, indexBounded, rfl⟩
    exact ⟨by omega, by omega, rfl⟩
  · refine within.exists_traverse ?_
    rintro depth index term ⟨depthBounded, indexBounded, rfl⟩
    have cutoffInWords : cutoff + depth < wordLimit := by omega
    have indexInWords : index + shift < wordLimit := by omega
    simp only [liftedVariable?, word?, if_pos cutoffInWords, if_pos indexInWords]
    by_cases moves : cutoff + depth ≤ index
    · exact ⟨_, if_pos moves, within_var (by omega) (by omega)⟩
    · exact ⟨_, if_neg moves, within_var (by omega) (by omega)⟩

/-- Substitution succeeds where there is room for it. -/
theorem Within.exists_substitute? (within : phrase.Within bound 0)
    (argumentsWithin : ∀ argument ∈ arguments, argument.Within bound' 0)
    (words : bound + bound' ≤ wordLimit) :
    ∃ result, phrase.substitute? arguments = some result ∧ result.Within (bound + bound') 0 := by
  refine within.exists_traverse ?_
  rintro depth index term ⟨depthBounded, indexBounded, rfl⟩
  rw [Nat.zero_add]
  by_cases inside : index < depth
  · exact ⟨_, if_neg (by omega), within_var (by omega) (by omega)⟩
  · simp only [substitutedVariable?, if_pos (Nat.le_of_not_lt inside)]
    cases isArgument : arguments[index - depth]? with
    | some argument =>
      exact (argumentsWithin argument (List.mem_of_getElem? isArgument)).exists_lift? _ _ le_rfl
        (by omega) words (by omega)
    | none => exact ⟨_, rfl, within_var (by omega) (by omega)⟩

/-- The substitution of variables by variables of the same number succeeds. -/
theorem Within.exists_substitute?_variables (within : phrase.Within wordLimit 0) (count : Nat) :
    ∃ result, phrase.substitute? ((List.range count).map var) = some result ∧
      result.Within wordLimit 0 := by
  refine within.exists_traverse ?_
  rintro depth index term ⟨depthBounded, indexBounded, rfl⟩
  rw [Nat.zero_add]
  by_cases inside : index < depth
  · exact ⟨_, if_neg (by omega), within_var depthBounded indexBounded⟩
  · simp only [substitutedVariable?, if_pos (Nat.le_of_not_lt inside)]
    cases isArgument : ((List.range count).map var)[index - depth]? with
    | some argument =>
      obtain ⟨_, rfl⟩ : index - depth < count ∧ var (index - depth) = argument := by
        simpa [List.getElem?_eq_some_iff] using isArgument
      have own : (var (index - depth)).Within (index - depth + 1) 0 :=
        within_var (by omega) (by omega)
      exact own.exists_lift? _ _ le_rfl (by omega) le_rfl (by omega)
    | none => exact ⟨_, rfl, within_var (by omega) (by omega)⟩

/-- A substitution succeeds for every term of a sequence where there is room for it. -/
theorem exists_mapM_substitute? {terms : List Term}
    (within : ∀ term ∈ terms, term.Within bound 0)
    (argumentsWithin : ∀ argument ∈ arguments, argument.Within bound' 0)
    (words : bound + bound' ≤ wordLimit) :
    ∃ results, terms.mapM (·.substitute? arguments) = some results ∧
      ∀ result ∈ results, result.Within (bound + bound') 0 := by
  induction terms with
  | nil => exact ⟨[], rfl, by simp⟩
  | cons first rest ih =>
    rw [List.forall_mem_cons] at within
    obtain ⟨first', isFirst, firstWithin⟩ := within.1.exists_substitute? argumentsWithin words
    obtain ⟨rest', isRest, restWithin⟩ := ih within.2
    exact ⟨first' :: rest', by simp [isFirst, isRest],
      List.forall_mem_cons.2 ⟨firstWithin, restWithin⟩⟩

theorem eq_map_of_mapM_substitute? {terms results : List Term}
    (substituted : terms.mapM (·.substitute? arguments) = some results) :
    results = terms.map (·.replace (assigned arguments)) := by
  induction terms generalizing results with
  | nil => simpa using substituted.symm
  | cons first rest ih =>
    simp only [List.mapM_cons, Option.bind_eq_bind, Option.bind_eq_some_iff, Option.pure_def,
      Option.some.injEq] at substituted
    obtain ⟨first', isFirst, rest', isRest, rfl⟩ := substituted
    rw [eq_replace_of_substitute? isFirst, ih isRest, List.map_cons]

/-- What was lifted under one binder is found again by instantiation. -/
theorem instantiate?_of_lift? {lifted : Phrase category} (argument : Term)
    (isLifted : phrase.lift? 1 0 = some lifted) : lifted.instantiate? argument = some phrase := by
  rw [eq_rename_of_lift?_zero isLifted]
  refine traverse_rename_eq_some ?_ phrase (.zero _)
  intro depth inner inside index
  simp only [instantiatedVariable?, inside index]
  by_cases bounded : index < depth
  · simp [bounded, show ¬index = depth by omega, show ¬depth < index by omega]
  · rw [if_neg bounded, if_neg (by omega), if_pos (by omega)]
    exact congrArg (fun index => some (var index)) (by omega)

/-- Lifting after an instantiation lifts the parts. -/
theorem rename_raised_replace (argument : Term) (shift cutoff : Nat) (phrase : Phrase category) :
    (phrase.replace (assigned [argument])).rename (raised shift cutoff) =
      (phrase.rename (raised shift (cutoff + 1))).replace
        (assigned [argument.rename (raised shift cutoff)]) := by
  rw [rename_replace, replace_rename]
  congr 1
  funext index
  cases index with
  | zero => simp [assigned, raised]
  | succ index =>
    have lowered : raised shift (cutoff + 1) (index + 1) = raised shift cutoff index + 1 := by
      simp only [raised, Nat.add_le_add_iff_right]
      split <;> omega
    rw [lowered]
    simp [assigned, rename, mapVariables]

/-- A traversal lifts what is within the words afterwards. -/
theorem traverse_liftedVariable? {shift : Nat} {inner : Nat → Nat} (phrase : Phrase category)
    (inside : RenamesUnder (· + shift) depth inner)
    (within : (phrase.rename inner).Within wordLimit depth) :
    phrase.traverse (liftedVariable? shift 0) depth = some (phrase.rename inner) := by
  unfold Within rename at *
  induction phrase generalizing depth inner with
  | var index =>
    obtain ⟨depthBounded, indexBounded, -⟩ : depth < wordLimit ∧ inner index < wordLimit ∧ _ := by
      cases within
      assumption
    simp only [inside index] at indexBounded
    simp only [traverse, liftedVariable?, mapVariables, inside index, Nat.zero_add, word?]
    grind
  | pi name info domain codomain ihDomain ihCodomain =>
    cases within with
    | pi domainWithin codomainWithin =>
      simp [traverse, mapVariables, ihDomain inside domainWithin,
        ihCodomain inside.succ codomainWithin]
  | const | prop | sizeUniv | omega | noAtoms | noTerms => rfl
  | _ =>
    cases within
    simp only [traverse, mapVariables, Option.bind_eq_bind, Option.bind_eq_some_iff,
      Option.pure_def, Option.some.injEq]
    grind

/-- What is within the words after it was lifted can be lifted. -/
theorem lift?_of_within_rename {shift : Nat}
    (within : (phrase.rename (· + shift)).Within wordLimit 0) :
    phrase.lift? shift 0 = some (phrase.rename (· + shift)) := by
  unfold lift?
  split
  · rename_i noShift
    rw [rename_eq_self phrase fun index => by simp [noShift]]
  · exact traverse_liftedVariable? phrase (.zero _) within

/-- Substitutions compose, variables that are substituted by themselves stay, instantiation is the
substitution of one term, undoes lifting and commutes with it.  All this happens without a number
that is no word if there is enough room. -/
theorem substitution_calculus (phrase : Phrase category) (argument : Term) (inner outer : List Term)
    (count shift cutoff : Nat) :
    let free := (phrase.freeVariables .anywhere).toList
    let twice := (phrase.substitute? inner).bind (·.substitute? outer)
    let once := (inner.mapM fun term : Term => term.substitute? outer).bind phrase.substitute?
    let liftedInstance := (phrase.instantiate? argument).bind (·.lift? shift cutoff)
    let liftedParts := (phrase.lift? shift (cutoff + 1)).bind fun body =>
      (argument.lift? shift cutoff).bind body.instantiate?
    ((∀ index ∈ free, index < inner.length) → ∀ left ∈ twice, ∀ right ∈ once, left = right) ∧
    ((∀ index ∈ free, index < count) → phrase.Within wordLimit 0 →
      phrase.substitute? ((List.range count).map var) = some phrase) ∧
    phrase.instantiate? argument = phrase.substitute? [argument] ∧
    (∀ lifted ∈ phrase.lift? 1 0, lifted.instantiate? argument = some phrase) ∧
    (∀ left ∈ liftedInstance, ∀ right ∈ liftedParts, left = right) ∧
    ∀ bound, phrase.Within bound 0 → argument.Within bound 0 →
      (∀ term ∈ inner, term.Within bound 0) → (∀ term ∈ outer, term.Within bound 0) →
      3 * bound + 2 * shift + cutoff < wordLimit →
      twice.isSome ∧ once.isSome ∧ (phrase.lift? 1 0).isSome ∧ liftedInstance.isSome ∧
        liftedParts.isSome := by
  intro free twice once liftedInstance liftedParts
  refine ⟨?_, ?_, instantiate?_eq_substitute? phrase argument,
    fun lifted => instantiate?_of_lift? argument, ?_, ?_⟩
  · intro bounded left isLeft right isRight
    obtain ⟨middle, isMiddle, isLeft⟩ := Option.bind_eq_some_iff.1 isLeft
    obtain ⟨terms, areTerms, isRight⟩ := Option.bind_eq_some_iff.1 isRight
    obtain rfl := eq_map_of_mapM_substitute? areTerms
    rw [eq_replace_of_substitute? isLeft, eq_replace_of_substitute? isMiddle,
      eq_replace_of_substitute? isRight, replace_replace]
    refine replace_congr_of_free fun index present => ?_
    simp [assigned, bounded index present]
  · intro bounded within
    obtain ⟨result, isResult, _⟩ := within.exists_substitute?_variables count
    rw [isResult, eq_replace_of_substitute? isResult]
    refine congrArg some (replace_eq_self_of_free fun index present => ?_)
    simp [assigned, bounded index present]
  · intro left isLeft right isRight
    obtain ⟨middle, isMiddle, isLeft⟩ := Option.bind_eq_some_iff.1 isLeft
    obtain ⟨body, isBody, isRight⟩ := Option.bind_eq_some_iff.1 isRight
    obtain ⟨lifted, isLifted, isRight⟩ := Option.bind_eq_some_iff.1 isRight
    rw [eq_rename_of_lift? isLeft, eq_replace_of_instantiate? isMiddle, rename_raised_replace,
      eq_replace_of_instantiate? isRight, eq_rename_of_lift? isBody, eq_rename_of_lift? isLifted]
  · intro bound within argumentWithin innerWithin outerWithin room
    obtain ⟨middle, isMiddle, middleWithin⟩ := within.exists_substitute? innerWithin (by omega)
    obtain ⟨left, isLeft, _⟩ := middleWithin.exists_substitute? outerWithin (by omega)
    obtain ⟨terms, areTerms, termsWithin⟩ :=
      exists_mapM_substitute? innerWithin outerWithin (by omega)
    obtain ⟨right, isRight, _⟩ := within.exists_substitute? termsWithin (by omega)
    obtain ⟨lifted, isLifted, _⟩ :=
      within.exists_lift? 1 0 (Nat.zero_le _) le_rfl (by omega) (by omega)
    obtain ⟨opened, isOpened, openedWithin⟩ :=
      within.exists_substitute? (List.forall_mem_singleton.2 argumentWithin) (by omega)
    obtain ⟨raised, isRaised, _⟩ :=
      openedWithin.exists_lift? shift cutoff (Nat.zero_le _) le_rfl (by omega) (by omega)
    obtain ⟨body, isBody, bodyWithin⟩ :=
      within.exists_lift? shift (cutoff + 1) (Nat.zero_le _) le_rfl (by omega) (by omega)
    obtain ⟨lifted', isLifted', liftedWithin⟩ :=
      argumentWithin.exists_lift? shift cutoff (Nat.zero_le _) le_rfl (by omega) (by omega)
    obtain ⟨parts, areParts, _⟩ :=
      bodyWithin.exists_substitute? (List.forall_mem_singleton.2 liftedWithin) (by omega)
    simp [twice, once, liftedInstance, liftedParts, instantiate?_eq_substitute?, *]

theorem substitution_calculus_pi :
    let phrase : Term := .pi ⟨0⟩ {}
      (.classified (.set (.lub 0 (.atom (.var 0) 1 .noAtoms))) (.var 1))
      (.classified .prop
        (.app (.var 1) (.placeholder 0 (.terms (.var 0) (.terms (.var 2) .noTerms))) {}))
    let inner : List Term := [.var 3, .app (.const ⟨0⟩) (.var 0) {}]
    let outer : List Term := [.level (.lub 2 .noAtoms)]
    phrase.Within 8 0 ∧ ∃ result,
      (phrase.substitute? inner).bind (·.substitute? outer) = some result ∧
      (inner.mapM fun term : Term => term.substitute? outer).bind phrase.substitute? = some result ∧
      phrase.substitute? ((List.range 2).map var) = some phrase := by
  intro phrase inner outer
  have within : phrase.Within 8 0 := by
    unfold Within
    repeat' constructor
  have innerWithin : ∀ term ∈ inner, term.Within 8 0 := by
    simp only [inner, List.forall_mem_cons, List.not_mem_nil, Within]
    exact ⟨by repeat' constructor, by repeat' constructor, by simp⟩
  have outerWithin : ∀ term ∈ outer, term.Within 8 0 := by
    simp only [outer, List.forall_mem_cons, List.not_mem_nil, Within]
    exact ⟨by repeat' constructor, by simp⟩
  have bounded : ∀ index ∈ (phrase.freeVariables .anywhere).toList, index < 2 := by decide +kernel
  obtain ⟨composed, identity, _, _, _, room⟩ :=
    substitution_calculus phrase (.var 0) inner outer 2 0 0
  obtain ⟨isTwice, isOnce, _⟩ := room 8 within (within_var (by omega) (by omega)) innerWithin
    outerWithin (by decide)
  obtain ⟨left, isLeft⟩ := Option.isSome_iff_exists.1 isTwice
  obtain ⟨right, isRight⟩ := Option.isSome_iff_exists.1 isOnce
  refine ⟨within, left, isLeft, ?_, ?_⟩
  · rw [isRight, composed bounded left isLeft right isRight]
  · refine identity bounded (within.mono ?_)
    rintro depth index term ⟨depthBounded, indexBounded, rfl⟩
    exact ⟨depthBounded.trans (by decide), indexBounded.trans (by decide), rfl⟩

/-- Binders can be removed exactly if none of their variables is free, and exactly from what was
lifted over them.  Lifting moves the free variables from the cutoff on, and a substitution replaces
the innermost free variables by those of its terms and lowers the others. -/
theorem strengthening_lifting_agree (phrase : Phrase category) (arguments : List Term)
    (count shift cutoff : Nat) :
    ((phrase.strengthen? count).isSome ↔
      ∀ index < count, index ∉ (phrase.freeVariables .anywhere).toList) ∧
    (∀ result : Phrase category, result.lift? count 0 = some phrase →
      phrase.strengthen? count = some result) ∧
    (phrase.Within wordLimit 0 → ∀ result, phrase.strengthen? count = some result →
      result.lift? count 0 = some phrase) ∧
    (∀ lifted ∈ phrase.lift? shift cutoff, ∀ counted number,
      number ∈ (lifted.freeVariables counted).toList ↔
        ∃ index ∈ (phrase.freeVariables counted).toList,
          number = if index < cutoff then index else index + shift) ∧
    (∀ result ∈ phrase.substitute? arguments, ∀ number,
      number ∈ (result.freeVariables .anywhere).toList ↔
        ∃ index ∈ (phrase.freeVariables .anywhere).toList,
          (∃ argument, arguments[index]? = some argument ∧
            number ∈ (argument.freeVariables .anywhere).toList) ∨
          arguments.length ≤ index ∧ number = index - arguments.length) ∧
    ∀ bound, phrase.Within bound 0 → (∀ argument ∈ arguments, argument.Within bound 0) →
      2 * bound + shift + cutoff ≤ wordLimit →
      (phrase.lift? shift cutoff).isSome ∧ (phrase.substitute? arguments).isSome := by
  refine ⟨isSome_strengthen?_iff, ?_, ?_, ?_, ?_, ?_⟩
  · exact fun result lifted => strengthen?_eq_some_iff.2 (eq_rename_of_lift?_zero lifted)
  · intro within result strengthened
    obtain rfl := strengthen?_eq_some_iff.1 strengthened
    exact lift?_of_within_rename within
  · intro lifted isLifted counted number
    rw [eq_rename_of_lift? isLifted, mem_freeVariables_rename]
    refine exists_congr fun index => and_congr_right fun _ => ?_
    simp only [raised, ← Nat.not_lt, ite_not]
  · intro result isResult number
    rw [eq_replace_of_substitute? isResult, mem_freeVariables_replace]
    refine exists_congr fun index => and_congr_right fun _ => ?_
    unfold assigned
    cases isArgument : arguments[index]? with
    | some argument =>
      have inside := (List.getElem?_eq_some_iff.1 isArgument).1
      simp [Nat.not_le_of_lt inside]
    | none =>
      have beyond := List.getElem?_eq_none_iff.1 isArgument
      simp [beyond, freeVariables, Positions.mem_ofList, freeFrom]
  · intro bound within argumentsWithin room
    obtain ⟨lifted, isLifted, _⟩ :=
      within.exists_lift? shift cutoff (Nat.zero_le _) le_rfl (by omega) (by omega)
    obtain ⟨result, isResult, _⟩ := within.exists_substitute? argumentsWithin (by omega)
    exact ⟨by rw [isLifted]; rfl, by rw [isResult]; rfl⟩

theorem strengthening_lifting_agree_pi :
    let phrase : Term := .pi ⟨0⟩ {}
      (.classified (.set (.lub 0 (.atom (.var 3) 1 .noAtoms))) (.var 2))
      (.classified .prop (.app (.var 4) (.placeholder 0 (.terms (.var 0) .noTerms)) {}))
    phrase.Within wordLimit 0 ∧ ∃ result, phrase.strengthen? 2 = some result ∧
      result.lift? 2 0 = some phrase := by
  intro phrase
  have within : phrase.Within wordLimit 0 := by
    unfold Within
    repeat' first | decide | constructor
  obtain ⟨succeeds, _, undone, _⟩ := strengthening_lifting_agree phrase [] 2 0 0
  obtain ⟨result, isResult⟩ := Option.isSome_iff_exists.1 (succeeds.2 (by decide +kernel))
  exact ⟨within, result, isResult, undone within result isResult⟩

end Phrase
end Families
