import Families.Proofs.DatatypeScope
import Families.Proofs.Registration
import Families.Proofs.Steps

/-!
# What an accepted declaration adds

An accepted constructor or datatype adds entries under paths that were free, or that declared the
datatype's type, and touches no other entry.  What is recorded of a constructor comes from separate
walks along its type, which see the same binders.
-/

namespace Families

variable {arity position : Nat} {certified : CertifiedDatatype} {after before : Checker}
variable {declaration : ConstructorDeclaration} {definition : DataDefinition} {head : DataHead}
variable {signature : Definition} {forced : List Bool} {nonLinear : List Nat}
variable {constructor path : Path} {parameters : Telescope} {ty : Ty} {sort : Universe}
variable {category : Category} {telescope : Telescope} {β α : Type} {action : α → Except Halt β}
variable {list : List α} {values : List β} {declarations : List ConstructorDeclaration}

namespace CheckM

variable {α : Type} {before after : Checker}

/-! ## Walks along a type -/

@[simp]
theorem yields_reduce_iff {phrase result : Phrase category} :
    Yields (reduce phrase) before result after ↔
      Families.reduce before.state before.fuel phrase = .ok result ∧ before = after := by
  simp [reduce, and_comm]

@[simp]
theorem yields_normalise_iff {phrase result : Phrase category} :
    Yields (normalise phrase) before result after ↔
      Families.normalise before.state before.fuel phrase = .ok result ∧ before = after := by
  simp [normalise, and_comm]

@[simp]
theorem yields_telescopeView_iff {view : Telescope × Ty} :
    Yields (telescopeView ty) before view after ↔
      Families.telescopeView before.state before.fuel ty = .ok view ∧ before = after := by
  simp [telescopeView, and_comm]

theorem yields_checkIf_iff {condition : Prop} [Decidable condition] {check : CheckM Unit}
    {answer : Unit} : Yields (checkIf condition check) before answer after ↔
      condition ∧ Yields check before answer after ∨ ¬condition ∧ before = after := by
  unfold checkIf
  split <;> simp_all

/-- A comparison of sorts by their order solves nothing. -/
theorem waits_of_tryLeqSort {left right : Universe} {result : Except ConversionError Unit}
    (yields : Yields (tryLeqSort left right) before result after) :
    ∃ state, before.state.Waits state ∧ { before with state } = after := by
  obtain ⟨_, rfl⟩ := yields
  exact ⟨_, (ConvM.waiting_leqSort left right before.state).follows, rfl⟩

theorem yields_leqSortOr_iff {left right : Universe} {wrap : ConversionError → CheckError}
    {answer : Unit} : Yields (leqSortOr left right wrap) before answer after ↔
      Yields (tryLeqSort left right) before (.ok answer) after := by
  simp only [leqSortOr, yields_bind_iff]
  constructor
  · rintro ⟨result, middle, compared, yields⟩
    cases result with
    | ok _ =>
      obtain ⟨_, rfl⟩ := yields_pure_iff.1 yields
      exact compared
    | error _ => exact absurd yields not_yields_fail
  · exact fun compared => ⟨_, after, compared, yields_pure_iff.2 ⟨rfl, rfl⟩⟩

theorem yields_leqLifted_iff {bound : Universe} {binders : Nat}
    {wrap : ConversionError → CheckError}
    {answer : Unit} : Yields (leqLifted sort bound binders wrap) before answer after ↔
      ∃ lifted, bound.lift? binders 0 = some lifted ∧
        Yields (tryLeqSort sort lifted) before (.ok answer) after := by
  simp [leqLifted, yields_leqSortOr_iff, checked_eq_ok_iff]

/-- The walk that compares the sorts of the arguments meets as many as the view of the type. -/
theorem arity_of_checkArguments {fuel fuel' : Nat} {state : State} {target : Ty}
    (yields : Yields (checkArguments head constructor forced fuel position ty.term) before arity
      after)
    (alike : state.UnfoldsAs before.state)
    (viewed : Families.telescopeView state fuel' ty = .ok (telescope, target)) :
    arity = position + telescope.length := by
  induction fuel generalizing fuel' position before ty telescope with
  | zero => exact absurd yields not_yields_halt
  | succ fuel ih =>
    cases fuel' with
    | zero => simp [Families.telescopeView] at viewed
    | succ fuel' =>
      simp only [Families.telescopeView, bind_eq_ok_iff] at viewed
      obtain ⟨reduced, isReduced, viewed⟩ := viewed
      simp only [checkArguments_succ, yields_bind_iff, yields_reduce_iff] at yields
      obtain ⟨_, _, ⟨isReduced', rfl⟩, yields⟩ := yields
      obtain rfl := reduce_unique alike isReduced isReduced'
      split at yields
      · simp only [bind_eq_ok_iff, pure_eq_ok_iff, Prod.mk.injEq] at viewed
        obtain ⟨⟨rest, last⟩, restViewed, rfl, rfl⟩ := viewed
        simp only [yields_bind_iff, yields_get_iff, yields_reduce_iff, yields_checkIf_iff,
          yields_leqLifted_iff] at yields
        obtain ⟨_, _, ⟨rfl, rfl⟩, _, _, ⟨_, rfl⟩, _, middle, compared, _, _, ⟨_, rfl⟩, yields⟩ :=
          yields
        have alike' : before.state.UnfoldsAs middle.state := by
          rcases compared with ⟨_, _, _, compared⟩ | ⟨_, rfl⟩
          · obtain ⟨state, waits, rfl⟩ := waits_of_tryLeqSort compared
            exact waits.unfoldsAs
          · exact .refl _
        simp only [ih yields (alike.trans alike') restViewed, List.length_cons]
        omega
      · rename_i notPi
        obtain ⟨rfl, _⟩ := yields_pure_iff.1 yields
        split at viewed
        · exact absurd rfl (notPi _ _ _ _)
        · obtain ⟨rfl, _⟩ := Prod.mk.inj (Except.ok.inj viewed)
          rfl

theorem arity_of_checkFits {target : Ty}
    (yields : Yields (checkFits head constructor forced ty) before arity after)
    (viewed : Families.telescopeView before.state before.fuel ty = .ok (telescope, target)) :
    arity = telescope.length := by
  simp only [checkFits_eq, yields_bind_iff, yields_get_iff, yields_checkIf_iff,
    yields_leqSortOr_iff]
    at yields
  obtain ⟨_, _, ⟨rfl, rfl⟩, _, middle, compared, yields⟩ := yields
  have alike : before.state.UnfoldsAs middle.state := by
    rcases compared with ⟨_, compared⟩ | ⟨_, rfl⟩
    · obtain ⟨state, waits, rfl⟩ := waits_of_tryLeqSort compared
      exact waits.unfoldsAs
    · exact .refl _
  obtain ⟨inner, walked, _⟩ := yields_restoreScope_iff.1 yields
  rw [arity_of_checkArguments walked alike viewed, Nat.zero_add]

/-- Whether an argument is forced is known for each binder of the type. -/
theorem length_of_findForced (yields : Yields (findForced head ty) before forced after) :
    before = after ∧ ∃ telescope target,
      Families.telescopeView before.state before.fuel ty = .ok (telescope, target) ∧
        forced.length = telescope.length := by
  unfold findForced at yields
  simp only [yields_bind_iff, yields_get_iff] at yields
  obtain ⟨_, _, ⟨rfl, rfl⟩, yields⟩ := yields
  split at yields
  · obtain ⟨found, rfl⟩ := yields_lift_iff.1 yields
    simp only [forcedArguments, bind_eq_ok_iff] at found
    obtain ⟨⟨telescope, target⟩, viewed, found⟩ := found
    refine ⟨rfl, telescope, target, viewed, ?_⟩
    split at found
    · obtain rfl := Except.ok.inj found
      simp
    · obtain ⟨determined, _, found⟩ := bind_eq_ok_iff.1 found
      obtain rfl := Except.ok.inj found
      simp
  · simp only [yields_bind_iff, yields_telescopeView_iff, yields_pure_iff] at yields
    obtain ⟨⟨telescope, target⟩, _, ⟨viewed, rfl⟩, rfl, rfl⟩ := yields
    exact ⟨rfl, telescope, target, viewed, by simp⟩

/-! ## Positions of parameters -/

/-- Each of the results was computed for an element. -/
theorem exists_of_mapM_eq_ok {value : β} (mapped : list.mapM action = .ok values)
    (present : value ∈ values) : ∃ element ∈ list, action element = .ok value := by
  induction list generalizing values with
  | nil =>
    obtain rfl := Except.ok.inj mapped
    cases present
  | cons first rest ih =>
    simp only [List.mapM_cons, bind_eq_ok_iff, pure_eq_ok_iff] at mapped
    obtain ⟨firstValue, found, restValues, restMapped, rfl⟩ := mapped
    rcases List.mem_cons.1 present with rfl | later
    · exact ⟨first, List.mem_cons_self, found⟩
    · obtain ⟨element, elementPresent, isFound⟩ := ih restMapped later
      exact ⟨element, List.mem_cons_of_mem first elementPresent, isFound⟩

/-- What is listed for the elements of a list is listed for one of them. -/
theorem mem_flatten_iff_of_mapM_eq_ok {list : List α} {action : α → Except Halt (List β)}
    {values : List (List β)} {member : β} {listed : α → Prop}
    (each : ∀ element value, action element = .ok value → (member ∈ value ↔ listed element))
    (mapped : list.mapM action = .ok values) :
    member ∈ values.flatten ↔ ∃ element ∈ list, listed element := by
  induction list generalizing values with
  | nil =>
    obtain rfl := Except.ok.inj mapped
    simp
  | cons first rest ih =>
    simp only [List.mapM_cons, bind_eq_ok_iff, pure_eq_ok_iff] at mapped
    obtain ⟨value, found, values, restMapped, rfl⟩ := mapped
    simp [each first value found, ih restMapped]

theorem yields_mapM_lift_iff {ε σ : Type} {start last : σ} :
    Yields (list.mapM fun element => (monadLift (action element) : Attempt ε σ β))
        start values last ↔
      list.mapM action = .ok values ∧ start = last := by
  induction list generalizing values with
  | nil =>
    rw [List.mapM_nil, List.mapM_nil, yields_pure_iff]
    exact and_congr_left fun _ => Except.ok.injEq _ _ ▸ Iff.rfl
  | cons first rest ih =>
    simp only [List.mapM_cons, yields_bind_iff, yields_lift_iff, yields_pure_iff, bind_eq_ok_iff]
    constructor
    · rintro ⟨value, _, ⟨found, rfl⟩, restValues, _, restYields, rfl, rfl⟩
      obtain ⟨restFound, rfl⟩ := ih.1 restYields
      exact ⟨⟨value, found, restValues, restFound, rfl⟩, rfl⟩
    · rintro ⟨⟨value, found, restValues, restFound, isValues⟩, rfl⟩
      exact ⟨value, start, ⟨found, rfl⟩, restValues, start,
        ih.2 ⟨restFound, rfl⟩, Except.ok.inj isValues, rfl⟩

/-- A parameter is found exactly if its variable is among the given ones. -/
theorem mem_parametersAmong_iff {bound parameters : Nat} {indices positions : List Nat}
    (enough : parameters ≤ bound)
    (found : parametersAmong constructor bound parameters indices = .ok positions) :
    position ∈ positions ↔ position < parameters ∧ bound - 1 - position ∈ indices := by
  induction indices generalizing positions with
  | nil =>
    obtain rfl := Except.ok.inj found
    simp
  | cons index indices ih =>
    simp only [parametersAmong] at found
    split at found
    · simp only [bind_eq_ok_iff, pure_eq_ok_iff] at found
      obtain ⟨rest, restFound, rfl⟩ := found
      have isIndex : position < parameters → (position = bound - 1 - index ↔
          bound - 1 - position = index) := by omega
      rw [List.mem_cons]
      split
      · rw [List.mem_cons, ih restFound]
        grind
      · rw [ih restFound]
        grind
    · simp at found

/-- What is found in a target are the parameters that occur in its indices. -/
theorem exists_of_checkTarget
    (yields : Yields (checkTarget head constructor ty) before nonLinear after) :
    ∃ walked target middle normal,
      Yields (walkToTarget head constructor before.fuel 0 ty.term) before (walked, target) middle ∧
      Families.normalise middle.state middle.fuel target = .ok normal ∧
      normal.head = .const head.path ∧
      ∀ position, position ∈ nonLinear ↔ position < head.parameters.length ∧
        ∃ argument ∈ normal.arguments.drop head.parameters.length,
          walked + head.parameters.length - 1 - position ∈
            argument.2.freeFrom .outsideAnnotations 0 := by
  simp only [checkTarget, yields_bind_iff, yields_get_iff] at yields
  obtain ⟨_, _, ⟨rfl, rfl⟩, ⟨walked, target⟩, middle, isWalked, normal, _, isNormal, yields⟩ :=
    yields
  obtain ⟨normalised, rfl⟩ := yields_normalise_iff.1 isNormal
  split at yields
  · rename_i shape
    simp only [yields_bind_iff, yields_pure_iff] at yields
    obtain ⟨_, _, _, occurring, _, found, rfl, _⟩ := yields
    refine ⟨walked, target, middle, normal, isWalked, normalised, shape.1, fun position => ?_⟩
    have occurs : ∀ (argument : ArgInfo × Term) positions,
        parametersAmong constructor (walked + head.parameters.length) head.parameters.length
          (argument.2.freeVariables .outsideAnnotations).toList = .ok positions →
        (position ∈ positions ↔ position < head.parameters.length ∧
          walked + head.parameters.length - 1 - position ∈
            argument.2.freeFrom .outsideAnnotations 0) := by
      intro argument positions isFound
      rw [mem_parametersAmong_iff (Nat.le_add_left _ walked) isFound, Phrase.freeVariables,
        Positions.mem_ofList]
    rw [mem_flatten_iff_of_mapM_eq_ok occurs (yields_mapM_lift_iff.1 found).1]
    simp only [and_left_comm, exists_and_left]
  · exact absurd yields not_yields_fail

/-- Only parameters are reported as occurring in the indices of a target. -/
theorem lt_of_checkTarget (yields : Yields (checkTarget head constructor ty) before nonLinear after)
    (present : position ∈ nonLinear) : position < head.parameters.length := by
  obtain ⟨_, _, _, _, _, _, _, exactly⟩ := exists_of_checkTarget yields
  exact ((exactly position).1 present).1

theorem sublist_of_smallAmong {positions small : List Nat}
    (yields : Yields (smallAmong parameters sort positions) before small after) :
    small.Sublist positions := by
  induction positions generalizing before after small with
  | nil =>
    obtain ⟨rfl, _⟩ := yields_pure_iff.1 yields
    exact .slnil
  | cons position positions ih =>
    obtain ⟨found, _, _, yields⟩ := yields_bind_iff.1 yields
    cases found with
    | none => exact (ih yields).cons position
    | some ty =>
      simp only [yields_bind_iff, yields_pure_iff] at yields
      obtain ⟨isSmall, _, _, rest, _, restYields, rfl, _⟩ := yields
      split
      · exact (ih restYields).cons_cons position
      · exact (ih restYields).cons position

theorem lt_of_smallParameters {small : Positions}
    (yields : Yields (smallParameters parameters sort) before small after)
    (present : position ∈ small) : position < parameters.length := by
  simp only [smallParameters, yields_bind_iff, yields_pure_iff] at yields
  obtain ⟨positions, _, found, rfl, _⟩ := yields
  have listed := (sublist_of_smallAmong found).subset (Positions.mem_ofList.1 present)
  exact List.mem_range.1 listed

end CheckM

/-! ## What constructors add -/

namespace State

/-- Placeholders, their solutions and postponed comparisons are still there. -/
structure Remembers (before after : State) : Prop where
  placeholders : ∀ (id : Nat) (placeholder : Placeholder),
    before.placeholders[id]? = some placeholder →
    ∃ solution, after.placeholders[id]? = some ⟨placeholder.scope, placeholder.kind, solution⟩ ∧
      (placeholder.solution.isSome → solution = placeholder.solution)
  constraints : before.constraints <+: after.constraints

theorem Grows.remembers {before after : State} (grows : before.Grows after) :
    before.Remembers after :=
  ⟨grows.placeholders, grows.constraints⟩

theorem Remembers.refl (state : State) : state.Remembers state :=
  (Grows.refl state).remembers

theorem Remembers.trans {first second third : State} (earlier : first.Remembers second)
    (later : second.Remembers third) :
    first.Remembers third where
  placeholders := by
    intro id placeholder found
    obtain ⟨solution, found', kept⟩ := earlier.placeholders id placeholder found
    obtain ⟨solution', found'', kept'⟩ := later.placeholders id _ found'
    refine ⟨solution', found'', fun solved => ?_⟩
    rw [kept solved] at kept'
    exact kept' solved
  constraints := earlier.constraints.trans later.constraints

theorem Remembers.solution? {before after : State} {id : Nat} {solution : Solution}
    (remembers : before.Remembers after) (solved : before.solution? id = some solution) :
    after.solution? id = some solution := by
  have grows : before.Grows { after with signature := before.signature } :=
    ⟨rfl, remembers.placeholders, remembers.constraints⟩
  exact grows.solution? solved

/-- Solutions stay, and so does what is entered if every function and every constructor does. -/
theorem Remembers.preserves {before after : State} (remembers : before.Remembers after)
    (entries : ∀ path entry, before.signature.get? path = some entry →
      after.signature.get? path = some entry ∨
        before.signature.body? path = none ∧ before.signature.constructor? path = none) :
    before.Preserves after := by
  refine ⟨⟨fun _ _ => remembers.solution?, ?body⟩, ?constructor⟩
  case body =>
    intro path body found
    cases isEntry : before.signature.get? path with
    | none => simp [Signature.body?, Signature.definition?, isEntry] at found
    | some entry =>
      rcases entries path entry isEntry with kept | ⟨rigid, _⟩
      · simpa [Signature.body?, Signature.definition?, isEntry, kept] using found
      · cases rigid.symm.trans found
  case constructor =>
    intro path constructor found
    cases isEntry : before.signature.get? path with
    | none => simp [Signature.constructor?, Signature.definition?, isEntry] at found
    | some entry =>
      rcases entries path entry isEntry with kept | ⟨_, noConstructor⟩
      · simpa [Signature.constructor?, Signature.definition?, isEntry, kept] using found
      · cases noConstructor.symm.trans found

theorem instancesOf_addInstance (state : State) (datatype constructor other : Path) :
    (state.addInstance datatype constructor).instancesOf other =
      if other = datatype then state.instancesOf datatype ++ [constructor]
      else state.instancesOf other := by
  simp only [instancesOf, addInstance, PathMap.get?_insert]
  split <;> rfl

theorem get?_withEntry (state : State) (path other : Path) (entry : Entry) :
    (state.withEntry path entry).signature.get? other =
      if other = path then some entry else state.signature.get? other :=
  PathMap.get?_insert ..

@[simp]
theorem get?_withEntry_self (state : State) (path : Path) (entry : Entry) :
    (state.withEntry path entry).signature.get? path = some entry := by
  rw [get?_withEntry, if_pos rfl]

/-- The last entry of a path counts. -/
@[simp]
theorem withEntry_withEntry (state : State) (path : Path) (first last : Entry) :
    (state.withEntry path first).withEntry path last = state.withEntry path last := by
  have entries : ∀ entries : List (Path × Entry),
      PathMap.insertInto path last (PathMap.insertInto path first entries) =
        PathMap.insertInto path last entries := by
    intro entries
    induction entries with
    | nil => simp [PathMap.insertInto]
    | cons entry entries ih => grind [PathMap.insertInto]
  simp only [withEntry, PathMap.insert, entries]

end State

/-- What is recorded of a constructor fits to its datatype, and each argument is known to be forced
or not. -/
structure Constructor.BelongsTo (constructor : Constructor) (datatype : Path) (parameters : Nat) :
    Prop where
  datatype : constructor.datatype = datatype
  parameters : constructor.parameters = parameters
  forced : constructor.forced.length = constructor.arity

/-- The paths of the constructors that are declared as instances. -/
def declaredInstances (declarations : List ConstructorDeclaration) (paths : List Path) :
    List Path :=
  ((declarations.zip paths).filter (·.1.isInstance)).map (·.2)

/-- The constructor is entered with its type, in which its forced arguments were found before. -/
def EntersConstructor (checker : Checker) (constructor : Path × Constructor) : Prop :=
  ∃ (found : Checker) (head : DataHead) (ty : Ty),
    found.state.Preserves checker.state ∧ found.forcing = checker.forcing ∧
    constructor.2.parameters = head.parameters.length ∧
    Yields (CheckM.findForced head ty) found constructor.2.forced found ∧
    checker.state.signature.get? constructor.1 = some
      ⟨⟨constructor.1, (head.parameters.withPlicity .implicit).toPi ty, .constructor constructor.2⟩,
        .complete⟩

theorem EntersConstructor.of_preserves {constructor : Path × Constructor}
    (enters : EntersConstructor before constructor) (preserves : before.state.Preserves after.state)
    (forcing : after.forcing = before.forcing)
    (same : after.state.signature.get? constructor.1 = before.state.signature.get? constructor.1) :
    EntersConstructor after constructor := by
  obtain ⟨found, head, ty, earlier, isForcing, parameters, isForced, entered⟩ := enters
  exact ⟨found, head, ty, earlier.trans preserves, isForcing.trans forcing.symm, parameters,
    isForced, same.trans entered⟩

/-- Constructors were declared in order, and nothing else changed in the signature. -/
structure AddsConstructors (datatype : Path) (parameters : Nat)
    (declarations : List ConstructorDeclaration) (before after : Checker)
    (constructors : List (Path × Constructor)) : Prop where
  /-- They have the declared names, in order, and fit to the datatype. -/
  declared : List.Forall₂
    (fun declaration constructor => after.names.Knows declaration.name constructor.1 ∧
      constructor.2.BelongsTo datatype parameters)
    declarations constructors
  nodup : (constructors.map (·.1)).Nodup
  free : ∀ constructor ∈ constructors, before.state.signature.get? constructor.1 = none
  enters : ∀ constructor ∈ constructors, EntersConstructor after constructor
  others : ∀ path, path ∉ constructors.map (·.1) →
    after.state.signature.get? path = before.state.signature.get? path
  /-- Those declared as instances are the new instances of the datatype. -/
  instances : after.state.instancesOf datatype = before.state.instancesOf datatype ++
    declaredInstances declarations (constructors.map (·.1))
  otherInstances : ∀ other, other ≠ datatype →
    after.state.instancesOf other = before.state.instancesOf other
  names : before.names.Grows after.names
  forcing : after.forcing = before.forcing
  remembers : before.state.Remembers after.state

namespace AddsConstructors

variable {datatype : Path} {parameters : Nat} {before middle after : Checker}

/-- Learning adds no constructors. -/
theorem nil (learns : before.Learns after) :
    AddsConstructors datatype parameters [] before after [] where
  declared := .nil
  nodup := .nil
  free := by simp
  enters := by simp
  others path _ := by rw [learns.state.grows.signature]
  instances := by simp [State.instancesOf, learns.state.instances, declaredInstances]
  otherInstances other _ := by rw [State.instancesOf, State.instancesOf, learns.state.instances]
  names := learns.names
  forcing := learns.forcing
  remembers := learns.state.grows.remembers

section

variable {declarations : List ConstructorDeclaration} {constructors : List (Path × Constructor)}

section

variable (adds : AddsConstructors datatype parameters declarations before after constructors)

include adds

theorem belongs {constructor : Path × Constructor}
    (present : constructor ∈ constructors) : constructor.2.BelongsTo datatype parameters :=
  ((List.forall₂_and_left _ _).1 (adds.declared.flip.imp fun _ _ => And.symm)).1 _ present

theorem entries {constructor : Path × Constructor} (present : constructor ∈ constructors) :
    ∃ ty, after.state.signature.get? constructor.1 =
      some ⟨⟨constructor.1, ty, .constructor constructor.2⟩, .complete⟩ := by
  obtain ⟨_, _, _, _, _, _, _, entered⟩ := adds.enters constructor present
  exact ⟨_, entered⟩

/-- A path that was taken is none of theirs. -/
theorem not_mem_of_taken {taken : Entry}
    (isTaken : before.state.signature.get? path = some taken) : path ∉ constructors.map (·.1) := by
  intro listed
  obtain ⟨constructor, present, rfl⟩ := List.mem_map.1 listed
  rw [adds.free constructor present] at isTaken
  cases isTaken

theorem preserves : before.state.Preserves after.state := by
  refine adds.remembers.preserves fun path entry found => .inl ?_
  rw [adds.others path (adds.not_mem_of_taken found), found]

end

end

theorem append {firstDeclarations lastDeclarations : List ConstructorDeclaration}
    {firstConstructors lastConstructors : List (Path × Constructor)}
    (first : AddsConstructors datatype parameters firstDeclarations before middle firstConstructors)
    (last : AddsConstructors datatype parameters lastDeclarations middle after lastConstructors) :
    AddsConstructors datatype parameters (firstDeclarations ++ lastDeclarations) before after
      (firstConstructors ++ lastConstructors) := by
  -- What the first ones took is not free for the last ones.
  have distinct : ∀ path ∈ firstConstructors.map (·.1), path ∉ lastConstructors.map (·.1) := by
    intro path firstPresent lastPresent
    obtain ⟨constructor, present, rfl⟩ := List.mem_map.1 firstPresent
    obtain ⟨taken, takenPresent, same⟩ := List.mem_map.1 lastPresent
    obtain ⟨ty, entered⟩ := first.entries present
    rw [← same, last.free taken takenPresent] at entered
    cases entered
  have free : ∀ constructor ∈ lastConstructors, constructor.1 ∉ firstConstructors.map (·.1) :=
    fun constructor present taken => distinct _ taken (List.mem_map_of_mem present)
  constructor
  case declared =>
    refine List.rel_append (first.declared.imp fun declaration constructor => ?_) last.declared
    exact And.imp_left fun knows => knows.mono last.names
  case nodup =>
    rw [List.map_append]
    exact List.nodup_append.2 ⟨first.nodup, last.nodup, fun path present other present' same =>
      distinct path present (same ▸ present')⟩
  case free =>
    intro constructor present
    rcases List.mem_append.1 present with early | late
    · exact first.free constructor early
    · rw [← first.others _ (free constructor late), last.free constructor late]
  case enters =>
    intro constructor present
    rcases List.mem_append.1 present with early | late
    · exact (first.enters constructor early).of_preserves last.preserves last.forcing
        (last.others _ (distinct _ (List.mem_map_of_mem early)))
    · exact last.enters constructor late
  case others =>
    intro path absent
    rw [List.map_append, List.mem_append, not_or] at absent
    rw [last.others path absent.2, first.others path absent.1]
  case instances =>
    have lengths : firstDeclarations.length = (firstConstructors.map (·.1)).length := by
      rw [List.length_map, first.declared.length_eq]
    rw [last.instances, first.instances, List.append_assoc]
    simp only [declaredInstances, List.map_append, List.zip_append lengths, List.filter_append]
  case otherInstances =>
    intro other different
    rw [last.otherInstances other different, first.otherInstances other different]
  case names => exact first.names.trans last.names
  case forcing => exact last.forcing.trans first.forcing
  case remembers => exact first.remembers.trans last.remembers

/-- The entry of a datatype may be exchanged. -/
theorem exchange {constructors : List (Path × Constructor)} {own : Path} {definition : Datatype}
    {phase : Phase}
    (adds : AddsConstructors datatype parameters declarations before after constructors)
    (isTaken : before.state.signature.get? path = some ⟨⟨own, ty, .datatype definition⟩, phase⟩)
    (entry : Entry) :
    AddsConstructors datatype parameters declarations
      { before with state := before.state.withEntry path entry }
      { after with state := after.state.withEntry path entry } constructors := by
  have distinct : ∀ constructor ∈ constructors, constructor.1 ≠ path :=
    fun constructor present same =>
      adds.not_mem_of_taken isTaken (same ▸ List.mem_map_of_mem present)
  have remembers := adds.remembers
  -- A datatype does not unfold and is no constructor.
  have preserves : after.state.Preserves (after.state.withEntry path entry) := by
    have same : after.state.Remembers (after.state.withEntry path entry) :=
      ⟨(State.Remembers.refl after.state).placeholders, List.prefix_refl _⟩
    refine same.preserves fun other found isFound => ?_
    rw [State.get?_withEntry]
    split
    · rename_i same
      have taken := (adds.others path (adds.not_mem_of_taken isTaken)).trans isTaken
      rw [same]
      exact .inr (by simp [Signature.body?, Signature.constructor?, Signature.definition?, taken])
    · exact .inl isFound
  refine { adds with
    free := ?_, enters := ?_, others := ?_,
    remembers := ⟨remembers.placeholders, remembers.constraints⟩ }
  · intro constructor present
    simp only [State.get?_withEntry, if_neg (distinct constructor present)]
    exact adds.free constructor present
  · intro constructor present
    refine (adds.enters constructor present).of_preserves preserves rfl ?_
    rw [State.get?_withEntry, if_neg (distinct constructor present)]
  · intro other absent
    simp only [State.get?_withEntry]
    rw [adds.others other absent]

end AddsConstructors

/-- The state with a constructor, and with an instance if it is declared as one. -/
def State.withConstructor (state : State) (head : DataHead) (isInstance : Bool) (path : Path)
    (ty : Ty) (constructor : Constructor) : State :=
  let entered := state.withEntry path
    ⟨⟨path, (head.parameters.withPlicity .implicit).toPi ty, .constructor constructor⟩, .complete⟩
  if isInstance then entered.addInstance head.path path else entered

/-- A constructor is entered under a free path. -/
theorem AddsConstructors.single {constructor : Constructor} {checker : Checker}
    (free : checker.state.signature.get? path = none)
    (knows : checker.names.Knows declaration.name path)
    (belongs : constructor.BelongsTo head.path head.parameters.length) {found : Checker}
    (consults : found.Consults checker)
    (isForced : Yields (CheckM.findForced head ty) found constructor.forced found) :
    AddsConstructors head.path head.parameters.length [declaration] checker
      { checker with
        state := checker.state.withConstructor head declaration.isInstance path ty constructor }
      [(path, constructor)] := by
  have entered : ∀ other, (checker.state.withConstructor head declaration.isInstance path ty
      constructor).signature.get? other = if other = path then
        some ⟨⟨path, (head.parameters.withPlicity .implicit).toPi ty, .constructor constructor⟩,
          .complete⟩
      else checker.state.signature.get? other := by
    intro other
    rw [← State.get?_withEntry, State.withConstructor]
    split <;> rfl
  have instances : ∀ other, (checker.state.withConstructor head declaration.isInstance path ty
      constructor).instancesOf other = if other = head.path then
        checker.state.instancesOf head.path ++ declaredInstances [declaration] [path]
      else checker.state.instancesOf other := by
    intro other
    rw [State.withConstructor]
    cases isInstance : declaration.isInstance with
    | true =>
      simp only [if_true, State.instancesOf_addInstance, declaredInstances, List.zip_cons_cons,
        List.zip_nil_left, List.filter_cons, isInstance, List.filter_nil, List.map_cons,
        List.map_nil]
      rfl
    | false =>
      simp only [Bool.false_eq_true, if_false, declaredInstances, List.zip_cons_cons,
        List.zip_nil_left, List.filter_cons, isInstance, List.filter_nil, List.map_nil,
        List.append_nil]
      split
      · rename_i same
        rw [same]
        rfl
      · rfl
  have remembers : checker.state.Remembers
      (checker.state.withConstructor head declaration.isInstance path ty constructor) := by
    rw [State.withConstructor]
    split <;> exact ⟨(State.Remembers.refl checker.state).placeholders, List.prefix_refl _⟩
  constructor
  case declared => exact .cons ⟨knows, belongs⟩ .nil
  case nodup => exact List.nodup_singleton path
  case free => simpa using free
  case enters =>
    intro other present
    rw [List.mem_singleton.1 present]
    have preserves := remembers.preserves fun other taken isTaken => .inl <| by
      rw [entered other, if_neg, isTaken]
      rintro rfl
      cases free.symm.trans isTaken
    exact ⟨found, head, ty, consults.learns.state.grows.preserves.trans preserves,
      consults.learns.forcing.symm, belongs.parameters, isForced, (entered path).trans (if_pos rfl)⟩
  case others =>
    intro other absent
    exact (entered other).trans (if_neg (by simpa using absent))
  case instances => exact (instances head.path).trans (if_pos rfl)
  case otherInstances => exact fun other different => (instances other).trans (if_neg different)
  case names => exact .refl _
  case forcing => rfl
  case remembers => exact remembers

namespace CheckM

variable {before after : Checker}

/-- The stages of the check of a constructor. -/
theorem stages_of_checkConstructor {constructor : Constructor}
    (yields : Yields (checkConstructor head declaration) before (path, constructor, nonLinear)
      after) :
    ∃ (entered elaborated found fitted : Checker) (written ty : Ty),
      Yields (enterPath declaration.name) before path entered ∧
      Yields (elaborateType declaration.ty) entered written elaborated ∧
      Yields (restoreScope (checkTarget head path written)) elaborated nonLinear found ∧
      Families.normalise found.state found.fuel written = .ok ty ∧
      Yields (findForced head ty) found constructor.forced found ∧
      Yields (checkFits head path constructor.forced ty) found constructor.arity fitted ∧
      constructor.datatype = head.path ∧ constructor.parameters = head.parameters.length ∧
      fitted.state.signature.get? path = none ∧
      after = { fitted with
        state := fitted.state.withConstructor head declaration.isInstance path ty
          constructor } := by
  unfold checkConstructor at yields
  obtain ⟨entered, first, isEntered, yields⟩ := yields_bind_iff.1 yields
  split at yields
  · simp only [yields_bind_iff] at yields
    obtain ⟨written, second, elaborated, occurring, third, targeted, ty, _, isNormal, forced, _,
      isForced, arity, fitted, fits, _, registered, isRegistered, yields⟩ := yields
    obtain ⟨normalised, rfl⟩ := yields_normalise_iff.1 isNormal
    obtain ⟨rfl, _⟩ := length_of_findForced isForced
    obtain ⟨free, rfl⟩ := yields_register_iff.1 isRegistered
    have added : (entered,
        (⟨head.path, head.parameters.length, arity, .ind, forced⟩ : Constructor), occurring) =
          (path, constructor, nonLinear) ∧
        after = { fitted with
          state := fitted.state.withConstructor head declaration.isInstance entered ty
            ⟨head.path, head.parameters.length, arity, .ind, forced⟩ } := by
      split at yields
      · rename_i isInstance
        simp only [yields_bind_iff, yields_modifyState_iff, yields_pure_iff] at yields
        obtain ⟨_, _, rfl, answered, rfl⟩ := yields
        exact ⟨answered, by rw [State.withConstructor, if_pos isInstance]⟩
      · rename_i isInstance
        obtain ⟨answered, rfl⟩ := yields_pure_iff.1 yields
        exact ⟨answered, by rw [State.withConstructor, if_neg isInstance]⟩
    obtain ⟨answered, rfl⟩ := added
    simp only [Prod.mk.injEq] at answered
    obtain ⟨rfl, rfl, rfl⟩ := answered
    exact ⟨first, second, third, fitted, written, ty, isEntered, elaborated, targeted, normalised,
      isForced, fits, rfl, rfl, free, rfl⟩
  · exact absurd yields not_yields_fail

/-- What is known of a constructor that is accepted.  Its forced arguments are found in the first of
the checkers, and it is entered in the second. -/
theorem exists_of_checkConstructor {constructor : Constructor}
    (yields : Yields (checkConstructor head declaration) before (path, constructor, nonLinear)
      after) :
    ∃ (found fitted : Checker) (ty : Ty),
      before.Consults found ∧ found.Consults fitted ∧
      found.names.Knows declaration.name path ∧
      (∀ position ∈ nonLinear, position < head.parameters.length) ∧
      Yields (findForced head ty) found constructor.forced found ∧
      Yields (checkFits head path constructor.forced ty) found constructor.arity fitted ∧
      constructor.datatype = head.path ∧ constructor.parameters = head.parameters.length ∧
      fitted.state.signature.get? path = none ∧
      after = { fitted with
        state := fitted.state.withConstructor head declaration.isInstance path ty
          constructor } := by
  obtain ⟨first, second, found, fitted, written, ty, isEntered, elaborated, targeted, _, isForced,
    fits, isDatatype, parameters, free, rfl⟩ := stages_of_checkConstructor yields
  have consults₁ := (Built.enterPath declaration.name).consults isEntered
  have consults₂ := (built_elaborateType declaration.ty).consults elaborated
  have consults₃ := (built_checkTarget head _ written).restoreScope.consults targeted
  have consults₄ := (built_checkFits head _ _ ty).consults fits
  obtain ⟨rfl, rfl⟩ := yields_enterPath_iff.1 isEntered
  have knows := (before.names.knows_enterPath declaration.name).mono
    (consults₂.trans consults₃).learns.names
  obtain ⟨_, target, _⟩ := yields_restoreScope_iff.1 targeted
  exact ⟨found, fitted, ty, (consults₁.trans consults₂).trans consults₃, consults₄, knows,
    fun _ => lt_of_checkTarget target, isForced, fits, isDatatype, parameters, free, rfl⟩

/-- The walks that find the forced arguments and count the arguments agree. -/
theorem length_forced_eq_arity {found fitted : Checker}
    (isForced : Yields (findForced head ty) found forced found)
    (fits : Yields (checkFits head path forced ty) found arity fitted) : forced.length = arity := by
  obtain ⟨_, telescope, target, viewed, length⟩ := length_of_findForced isForced
  rw [length, arity_of_checkFits fits viewed]

theorem adds_checkConstructor {constructor : Constructor}
    (yields : Yields (checkConstructor head declaration) before (path, constructor, nonLinear)
      after) :
    AddsConstructors head.path head.parameters.length [declaration] before after
        [(path, constructor)] ∧
      ∀ position ∈ nonLinear, position < head.parameters.length := by
  obtain ⟨found, fitted, ty, consults₁, consults₂, knows, bounded, isForced, fits,
    ofDatatype, parameters, free, rfl⟩ := exists_of_checkConstructor yields
  refine ⟨?_, bounded⟩
  have belongs : constructor.BelongsTo head.path head.parameters.length :=
    ⟨ofDatatype, parameters, length_forced_eq_arity isForced fits⟩
  have learned : AddsConstructors head.path head.parameters.length [] before fitted [] :=
    .nil (consults₁.trans consults₂).learns
  exact learned.append
    (.single free (knows.mono consults₂.learns.names) belongs consults₂ isForced)

theorem adds_checkConstructors {answers : List (Path × Constructor × List Nat)}
    (yields : Yields (checkConstructors head declarations) before answers after) :
    AddsConstructors head.path head.parameters.length declarations before after
        (answers.map fun (path, constructor, _) => (path, constructor)) ∧
      ∀ answer ∈ answers, ∀ position ∈ answer.2.2, position < head.parameters.length := by
  induction declarations generalizing before answers with
  | nil =>
    obtain ⟨rfl, rfl⟩ := yields_pure_iff.1 yields
    exact ⟨.nil (.refl before), by simp⟩
  | cons declaration declarations ih =>
    simp only [checkConstructors, yields_bind_iff, yields_pure_iff] at yields
    obtain ⟨⟨path, constructor, nonLinear⟩, middle, firstYields, rest, _, restYields, rfl, rfl⟩ :=
      yields
    obtain ⟨first, firstBounded⟩ := adds_checkConstructor firstYields
    obtain ⟨last, lastBounded⟩ := ih restYields
    exact ⟨first.append last, List.forall_mem_cons.2 ⟨firstBounded, lastBounded⟩⟩

end CheckM

/-! ## What datatypes add -/

/-- The entry of a datatype with its type. -/
def CertifiedDatatype.entry (certified : CertifiedDatatype) (ty : Ty) : Entry :=
  ⟨⟨certified.path, ty, .datatype certified.datatype⟩, .complete⟩

/-- A datatype was entered, under a free path or in place of the declaration of its type, and with
it its constructors. -/
structure AddsDatatype (definition : DataDefinition) (ty : Ty) (before after : Checker)
    (certified : CertifiedDatatype) : Prop where
  /-- At most its type was declared. -/
  declared : ∀ entry, before.state.signature.get? certified.path = some entry →
    entry.definition.kind = .dataSignature ∧ entry.phase = .complete
  /-- Its constructors come on top of its own entry. -/
  constructors : AddsConstructors certified.path certified.datatype.parameters
    definition.constructors
    { before with state := before.state.withEntry certified.path (certified.entry ty) } after
    certified.constructors
  listed : certified.datatype.constructors = certified.constructors.map (·.1)
  small : ∀ position ∈ certified.datatype.smallParameters,
    position < certified.datatype.parameters
  nonLinear : ∀ position ∈ certified.datatype.nonLinearParameters,
    position < certified.datatype.parameters

namespace AddsDatatype

variable {definition : DataDefinition} {ty : Ty} {before after : Checker}
variable {certified : CertifiedDatatype}

section

variable (adds : AddsDatatype definition ty before after certified)

include adds

/-- The datatype is none of its constructors, and their paths were free. -/
theorem free {constructor : Path × Constructor} (present : constructor ∈ certified.constructors) :
    constructor.1 ≠ certified.path ∧ before.state.signature.get? constructor.1 = none := by
  have free := adds.constructors.free constructor present
  simp only [State.get?_withEntry] at free
  split at free
  · cases free
  · exact ⟨by assumption, free⟩

theorem entry : after.state.signature.get? certified.path = some (certified.entry ty) := by
  have taken := before.state.get?_withEntry_self certified.path (certified.entry ty)
  exact (adds.constructors.others _ (adds.constructors.not_mem_of_taken taken)).trans taken

theorem others
    (different : path ≠ certified.path) (absent : path ∉ certified.constructors.map (·.1)) :
    after.state.signature.get? path = before.state.signature.get? path := by
  rw [adds.constructors.others path absent]
  simp only [State.get?_withEntry, if_neg different]

/-- All other entries are still there. -/
theorem get?_of_ne {entry : Entry}
    (found : before.state.signature.get? path = some entry) (different : path ≠ certified.path) :
    after.state.signature.get? path = some entry := by
  rw [adds.others different, found]
  intro listed
  obtain ⟨constructor, present, rfl⟩ := List.mem_map.1 listed
  cases (adds.free present).2.symm.trans found

/-- An entry is the datatype's, that of a constructor, or one that was there before. -/
theorem get?_cases {entry : Entry} (found : after.state.signature.get? path = some entry) :
    path = certified.path ∧ entry = certified.entry ty ∨
      (∃ constructor ∈ certified.constructors, ∃ ty, path = constructor.1 ∧
        entry = ⟨⟨constructor.1, ty, .constructor constructor.2⟩, .complete⟩) ∨
      before.state.signature.get? path = some entry := by
  by_cases isDatatype : path = certified.path
  · rw [isDatatype, adds.entry] at found
    exact .inl ⟨isDatatype, (Option.some.inj found).symm⟩
  · by_cases isConstructor : path ∈ certified.constructors.map (·.1)
    · obtain ⟨constructor, present, rfl⟩ := List.mem_map.1 isConstructor
      obtain ⟨ty, entered⟩ := adds.constructors.entries present
      rw [entered] at found
      exact .inr (.inl ⟨constructor, present, ty, rfl, (Option.some.inj found).symm⟩)
    · rw [adds.others isDatatype isConstructor] at found
      exact .inr (.inr found)

end

end AddsDatatype

/-- What was learned does not depend on an entry. -/
theorem Checker.Learns.withEntry (learns : before.Learns after) (path : Path) (entry : Entry) :
    Checker.Learns { before with state := before.state.withEntry path entry }
      { after with state := after.state.withEntry path entry } := by
  have grows := learns.state.grows
  have signature : (after.state.withEntry path entry).signature =
      (before.state.withEntry path entry).signature := by
    rw [State.withEntry, State.withEntry, grows.signature]
  exact { learns with
    state := ⟨⟨signature, grows.placeholders, grows.constraints⟩, learns.state.instances⟩ }

/-- Learning before and after a datatype is added. -/
theorem AddsDatatype.of_learns {first last : Checker}
    (adds : AddsDatatype definition ty before after certified) (earlier : first.Learns before)
    (later : after.Learns last) : AddsDatatype definition ty first last certified := by
  have learned : AddsConstructors certified.path certified.datatype.parameters [] _ _ [] :=
    .nil (earlier.withEntry certified.path (certified.entry ty))
  have learned' : AddsConstructors certified.path certified.datatype.parameters [] after last [] :=
    .nil later
  have constructors := (learned.append adds.constructors).append learned'
  simp only [List.nil_append, List.append_nil] at constructors
  refine { adds with constructors := constructors, declared := ?_ }
  rw [← earlier.state.grows.signature]
  exact adds.declared

namespace CheckM

variable {before after : Checker}

theorem adds_checkInSort {indices : Nat}
    (yields : Yields (checkInSort definition signature parameters indices sort) before certified
      after) :
    certified.path = signature.path ∧
      AddsDatatype definition signature.ty before after certified := by
  simp only [checkInSort, yields_bind_iff, yields_pure_iff] at yields
  obtain ⟨small, first, isSmall, _, second, isPending, constructors, third, isAdded, _, fourth,
    isSingleton, normal, _, isNormal, _, last, isComplete, rfl, rfl⟩ := yields
  obtain ⟨_, rfl⟩ := yields_normalise_iff.1 isNormal
  have consults := (built_smallParameters parameters sort).consults isSmall
  have consults' := (built_checkSingleton signature.path sort _).consults isSingleton
  obtain ⟨declared, rfl⟩ := yields_registerPending_iff.1 isPending
  obtain ⟨pending, isFound, rfl⟩ := yields_complete_iff.1 isComplete
  obtain ⟨adds, bounded⟩ := adds_checkConstructors isAdded
  replace adds := adds.append (.nil consults'.learns)
  simp only [List.append_nil] at adds
  -- The pending entry is still there, and the final one takes its place.
  have taken := State.get?_withEntry_self first.state signature.path
  rw [adds.others _ (adds.not_mem_of_taken (taken _)), taken] at isFound
  obtain ⟨rfl⟩ := isFound
  refine ⟨rfl, .of_learns ⟨?_, ?_, ?_, ?_, ?_⟩ consults.learns (.refl _)⟩
  · exact declared
  · simpa [CertifiedDatatype.entry] using adds.exchange (taken _) _
  · simp
  · exact fun position => lt_of_smallParameters isSmall
  · intro position present
    obtain ⟨answer, answerPresent, present⟩ := List.mem_flatMap.1 (Positions.mem_ofList.1 present)
    exact bounded answer answerPresent position present

theorem adds_checkUnderParameters {tail : Ty}
    (yields : Yields (checkUnderParameters definition signature parameters tail) before certified
      after) :
    certified.path = signature.path ∧
      AddsDatatype definition signature.ty before after certified := by
  simp only [checkUnderParameters_eq, yields_bind_iff, yields_get_iff, yields_telescopeView_iff]
    at yields
  obtain ⟨_, _, ⟨rfl, rfl⟩, ⟨indices, core⟩, _, ⟨_, rfl⟩, sort, resolved, isResolved, _, compared,
    isCompared, yields⟩ := yields
  have learns := ((built_resolveSort signature.path indices core).consults isResolved).learns
  have learns' := ((built_checkIf _ (built_checkIndexSorts _ _ _)).consults isCompared).learns
  obtain ⟨samePath, adds⟩ := adds_checkInSort yields
  exact ⟨samePath, adds.of_learns (learns.trans learns') (.refl _)⟩

theorem yields_dataSignature (yields : Yields (dataSignature path) before signature after) :
    before = after ∧ ∃ phase, before.state.signature.get? path = some ⟨signature, phase⟩ := by
  unfold dataSignature at yields
  obtain ⟨_, _, read, yields⟩ := yields_bind_iff.1 yields
  obtain ⟨rfl, rfl⟩ := yields_get_iff.1 read
  split at yields
  · rename_i found
    obtain ⟨rfl, rfl⟩ := yields_pure_iff.1 yields
    obtain ⟨⟨_, phase⟩, isFound, rfl⟩ := Option.map_eq_some_iff.1 found
    exact ⟨rfl, phase, isFound⟩
  · exact absurd yields not_yields_fail
  · exact absurd yields not_yields_fail

end CheckM
end Families
