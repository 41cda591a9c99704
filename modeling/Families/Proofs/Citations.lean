import Families.ModuleCheck
import Families.Proofs.Inert
import Families.Proofs.ScopedState

/-!
# Declarations that are cited

A phrase cites the declarations that it mentions.  Substitution and reduction cite nothing new
beyond what the stored types, bodies and solutions cite.  So two states that store the same, apart
from declarations that nothing cites, reduce a phrase alike.
-/

namespace Families

variable {known : Path → Prop}
variable {phrase result : Phrase category} {ty core : Ty} {telescope : Telescope} {path : Path}
variable {fuel : Nat} {definition : Definition} {α : Type} {list : List α}

/-! ## Phrases -/

namespace Phrase

variable {category : Category}

/-- Every declaration that the phrase mentions is known. -/
def CitesOnly (known : Path → Prop) : {category : Category} → Phrase category → Prop
  | _, var _ => True
  | _, const path => known path
  | _, app function argument _ => function.CitesOnly known ∧ argument.CitesOnly known
  | _, pi _ _ domain codomain => domain.CitesOnly known ∧ codomain.CitesOnly known
  | _, univ sort => sort.CitesOnly known
  | _, level bound => bound.CitesOnly known
  | _, placeholder _ arguments => arguments.CitesOnly known
  | _, classified sort term => sort.CitesOnly known ∧ term.CitesOnly known
  | _, prop => True
  | _, set bound => bound.CitesOnly known
  | _, sizeUniv => True
  | _, omega => True
  | _, sortPlaceholder _ arguments => arguments.CitesOnly known
  | _, lub _ atoms => atoms.CitesOnly known
  | _, noAtoms => True
  | _, atom term _ rest => term.CitesOnly known ∧ rest.CitesOnly known
  | _, noTerms => True
  | _, terms first rest => first.CitesOnly known ∧ rest.CitesOnly known

theorem CitesOnly.mono {known' : Path → Prop} (cites : phrase.CitesOnly known)
    (more : ∀ path, known path → known' path) : phrase.CitesOnly known' := by
  induction phrase with
  | const path => exact more path cites
  | _ => simp_all [CitesOnly]

theorem CitesOnly.sort :
    ∀ {ty : Ty}, ty.CitesOnly known → ty.sort.CitesOnly known
  | classified _ _, cites => cites.1

theorem CitesOnly.term :
    ∀ {ty : Ty}, ty.CitesOnly known → ty.term.CitesOnly known
  | classified _ _, cites => cites.2

theorem citesOnly_iff_toList :
    ∀ {sequence : Phrase .terms},
      sequence.CitesOnly known ↔ ∀ term ∈ sequence.toList, term.CitesOnly known
  | noTerms => by simp [CitesOnly]
  | terms first rest => by
    have tail : rest.CitesOnly known ↔ _ := citesOnly_iff_toList
    simp [CitesOnly, tail]

theorem citesOnly_iff_atomList :
    ∀ {atoms : Phrase .atoms},
      atoms.CitesOnly known ↔ ∀ atom ∈ atoms.atomList, atom.term.CitesOnly known
  | noAtoms => by simp [CitesOnly]
  | atom term offset rest => by
    have tail : rest.CitesOnly known ↔ _ := citesOnly_iff_atomList
    simp [CitesOnly, tail]

theorem citesOnly_iff_argumentsFrom (later : List (ArgInfo × Term)) (phrase : Phrase category) :
    phrase.CitesOnly known ∧ (∀ argument ∈ later, argument.2.CitesOnly known) ↔
      phrase.head.CitesOnly known ∧
        ∀ argument ∈ phrase.argumentsFrom later, argument.2.CitesOnly known := by
  induction phrase generalizing later with
  | app function argument info ihFunction ihArgument =>
    simp only [head, argumentsFrom, CitesOnly]
    rw [← ihFunction]
    simp only [List.forall_mem_cons]
    tauto
  | _ => simp [head, argumentsFrom]

theorem citesOnly_iff_arguments {term : Term} :
    term.CitesOnly known ↔
      term.head.CitesOnly known ∧ ∀ argument ∈ term.arguments, argument.2.CitesOnly known := by
  simpa [arguments] using citesOnly_iff_argumentsFrom [] term

theorem CitesOnly.applyTo {function : Term} {arguments : List (ArgInfo × Term)}
    (cites : function.CitesOnly known) (each : ∀ argument ∈ arguments, argument.2.CitesOnly known) :
    (function.applyTo arguments).CitesOnly known := by
  induction arguments generalizing function with
  | nil => exact cites
  | cons first rest ih =>
    rw [List.forall_mem_cons] at each
    exact ih ⟨cites, each.1⟩ each.2

/-- A traversal cites what the phrase and the images of its variables cite. -/
theorem Maps.citesOnly {image : (depth index : Nat) → Term → Prop} {depth : Nat}
    (maps : Maps image depth phrase result) (cites : phrase.CitesOnly known)
    (images : ∀ {depth index term}, image depth index term → term.CitesOnly known) :
    result.CitesOnly known := by
  induction maps with
  | var isImage => exact images isImage
  | _ => simp_all [CitesOnly]

theorem CitesOnly.lift? {shift cutoff : Nat} (cites : phrase.CitesOnly known)
    (lifted : phrase.lift? shift cutoff = some result) : result.CitesOnly known := by
  unfold Phrase.lift? at lifted
  split at lifted
  · exact Option.some.inj lifted ▸ cites
  · refine (maps_of_traverse_eq_some lifted).citesOnly cites fun {depth index term} found => ?_
    simp only [liftedVariable?, Option.bind_eq_bind, Option.bind_eq_some_iff] at found
    obtain ⟨_, _, found⟩ := found
    split at found
    · simp only [Option.bind_eq_some_iff, Option.pure_def, Option.some.injEq] at found
      obtain ⟨_, _, rfl⟩ := found
      trivial
    · exact Option.some.inj found ▸ trivial

theorem CitesOnly.substitute? {arguments : List Term} (cites : phrase.CitesOnly known)
    (argumentsCite : ∀ argument ∈ arguments, argument.CitesOnly known)
    (substituted : phrase.substitute? arguments = some result) : result.CitesOnly known := by
  refine (maps_of_traverse_eq_some substituted).citesOnly cites fun {depth index term} found => ?_
  simp only [substitutedVariable?] at found
  split at found
  · split at found
    · rename_i argument isArgument
      exact (argumentsCite argument (List.mem_of_getElem? isArgument)).lift? found
    · exact Option.some.inj found ▸ trivial
  · exact Option.some.inj found ▸ trivial

theorem CitesOnly.instantiate? {argument : Term} (cites : phrase.CitesOnly known)
    (argumentCites : argument.CitesOnly known)
    (instantiated : phrase.instantiate? argument = some result) : result.CitesOnly known := by
  rw [instantiate?_eq_substitute?] at instantiated
  exact cites.substitute? (List.forall_mem_singleton.2 argumentCites) instantiated

theorem CitesOnly.strengthen? {count : Nat} (cites : phrase.CitesOnly known)
    (strengthened : phrase.strengthen? count = some result) : result.CitesOnly known := by
  refine (maps_of_traverse_eq_some strengthened).citesOnly cites fun {depth index term} found => ?_
  simp only [strengthenedVariable?] at found
  split at found
  · split at found
    · cases found
    · exact Option.some.inj found ▸ trivial
  · exact Option.some.inj found ▸ trivial

theorem CitesOnly.invert {id : Nat} {pattern : List Nat} (cites : phrase.CitesOnly known)
    (inverted : Families.invert id pattern phrase = .ok result) : result.CitesOnly known := by
  refine (maps_of_traverse_eq_ok inverted).citesOnly cites fun {depth index term} found => ?_
  simp only [invertedVariable] at found
  split at found
  · split at found
    · exact Except.ok.inj found ▸ trivial
    · cases found
  · exact Except.ok.inj found ▸ trivial

end Phrase

/-! ## Levels, sorts and telescopes -/

theorem Phrase.CitesOnly.leaf {category : Category} {phrase : Phrase category} {leaf : Term}
    (cites : phrase.CitesOnly known) (present : leaf ∈ phrase.leaves) : leaf.CitesOnly known := by
  induction phrase with
  | level bound ih => exact ih cites present
  | lub constant atoms ih => exact ih cites present
  | atom term offset rest ihTerm ihRest =>
    exact (List.mem_append.1 present).elim (ihTerm cites.1) (ihRest cites.2)
  | _ => simp_all [leaves]

namespace Level

theorem citesOnly_iff :
    ∀ {level : Level}, level.CitesOnly known ↔ ∀ term ∈ terms level, term.CitesOnly known
  | .lub constant atoms => by
    simp [Phrase.CitesOnly, Phrase.citesOnly_iff_atomList, terms, Level.atoms]

theorem citesOnly_ofTerm {term : Term} (cites : term.CitesOnly known) :
    (ofTerm term).CitesOnly known := by
  cases term with
  | level bound => exact cites
  | _ => exact ⟨cites, trivial⟩

theorem citesOnly_canonical {constant : Nat} {atoms : List Atom}
    (each : ∀ atom ∈ atoms, atom.term.CitesOnly known) :
    (canonical constant atoms).CitesOnly known := by
  rw [citesOnly_iff]
  intro term present
  obtain ⟨atom, isAtom, rfl⟩ := List.mem_map.1 (mem_terms_canonical.1 present)
  exact each atom isAtom

theorem citesOnly_join {left right : Level} (leftCites : left.CitesOnly known)
    (rightCites : right.CitesOnly known) : (join left right).CitesOnly known := by
  rw [citesOnly_iff] at *
  intro term present
  exact (mem_terms_join.1 present).elim (leftCites term) (rightCites term)

theorem citesOnly_raise? {level raised : Level} {by_ : Nat} (cites : level.CitesOnly known)
    (succeeded : raise? level by_ = some raised) : raised.CitesOnly known := by
  rw [eq_raise_of_raise? succeeded]
  rw [citesOnly_iff] at *
  exact fun term present => cites term (mem_terms_raise.1 present)

end Level

namespace Universe

theorem citesOnly_succ? {sort above : Universe} (cites : sort.CitesOnly known)
    (succeeded : succ? sort = some above) : above.CitesOnly known := by
  cases sort with
  | set level =>
    simp only [succ?, Option.bind_eq_bind, Option.bind_eq_some_iff, Option.pure_def,
      Option.some.injEq] at succeeded
    obtain ⟨next, raised, rfl⟩ := succeeded
    exact Level.citesOnly_raise? cites raised
  | _ => exact Option.some.inj succeeded ▸ trivial

theorem citesOnly_pi? {domain result : Universe} {codomain : Option Universe}
    (domainCites : domain.CitesOnly known)
    (codomainCites : ∀ sort, codomain = some sort → sort.CitesOnly known)
    (succeeded : pi? domain codomain = some result) : result.CitesOnly known := by
  refine pi?_induction succeeded trivial trivial trivial codomainCites ?_
  rintro left right rfl rfl
  exact Level.citesOnly_join domainCites (codomainCites _ rfl)

end Universe

/-- The types of all binders cite known declarations only. -/
def Telescope.CitesOnly (known : Path → Prop) (telescope : Telescope) : Prop :=
  ∀ domain ∈ telescope, domain.ty.CitesOnly known

namespace Telescope

theorem CitesOnly.withPlicity (cites : telescope.CitesOnly known) (plicity : Plicity) :
    (telescope.withPlicity plicity).CitesOnly known := by
  intro domain present
  obtain ⟨source, isSource, rfl⟩ := List.mem_map.1 present
  exact cites source isSource

theorem citesOnly_toPi (cites : telescope.CitesOnly known) (coreCites : core.CitesOnly known) :
    (telescope.toPi core).CitesOnly known := by
  induction telescope with
  | nil => exact coreCites
  | cons domain rest ih =>
    obtain ⟨domainCites, restCites⟩ := List.forall_mem_cons.1 cites
    have codomainCites := ih restCites
    refine ⟨?_, domainCites, codomainCites⟩
    cases computed : Universe.pi? domain.ty.sort ((toPi rest core).sort.strengthen? 1) with
    | none => exact computed ▸ trivial
    | some sort =>
      have sortCites : sort.CitesOnly known := Universe.citesOnly_pi? domainCites.sort
        (fun _ found => codomainCites.sort.strengthen? found) computed
      exact computed ▸ sortCites

end Telescope

namespace Context

theorem citesOnly_typeOf? {context : Context} {index : Nat}
    (cites : Telescope.CitesOnly known context) (found : context.typeOf? index = some (some ty)) :
    ty.CitesOnly known := by
  obtain ⟨domain, domainFound, lifted⟩ := exists_of_typeOf? found
  exact (cites domain (List.mem_of_getElem? domainFound)).lift? lifted

theorem citesOnly_identity (context : Context) : context.identity.CitesOnly known := by
  rw [Phrase.citesOnly_iff_toList, toList_identity]
  simp [Phrase.CitesOnly]

end Context

/-! ## States -/

/-- What a placeholder was found to be cites known declarations only. -/
def Solution.CitesOnly (known : Path → Prop) : Solution → Prop
  | .term value => value.CitesOnly known
  | .sort value => value.CitesOnly known

/-- All declarations are known, and whatever is looked up in the state cites known declarations
only. -/
structure State.CitesOnly (known : Path → Prop) (state : State) : Prop where
  level : known Path.level
  declared : ∀ {path entry}, state.signature.get? path = some entry → known path
  types : ∀ {path entry}, state.signature.get? path = some entry →
    entry.definition.ty.CitesOnly known
  bodies : ∀ {path entry arity body}, state.signature.get? path = some entry →
    entry.definition.kind = .function arity (some body) → body.CitesOnly known
  placeholders : ∀ {id scope : Nat} {ty : Term} {solution : Option Solution},
    state.placeholders[id]? = some ⟨scope, .term ty, solution⟩ → ty.CitesOnly known
  solutions : ∀ {id solution}, state.solution? id = some solution → solution.CitesOnly known

/-- The wide state stores what the narrow one stores, which cites known declarations only.  Under
the other paths it has its own declarations. -/
structure State.Widens (known : Path → Prop) (extra : Path → Option Entry) (narrow wide : State) :
    Prop where
  cites : narrow.CitesOnly known
  placeholders : wide.placeholders = narrow.placeholders
  constraints : wide.constraints = narrow.constraints
  instances : wide.instances = narrow.instances
  shared : ∀ {path}, known path → wide.signature.get? path = narrow.signature.get? path
  own : ∀ {path}, ¬known path → wide.signature.get? path = extra path

variable {extra : Path → Option Entry} {narrow wide state : State} {category : Category}

namespace State.CitesOnly

theorem definition? (cites : state.CitesOnly known)
    (found : state.signature.definition? path = some definition) :
    known path ∧ definition.ty.CitesOnly known ∧
      ∀ {arity body}, definition.kind = .function arity (some body) → body.CitesOnly known := by
  obtain ⟨entry, isEntry, rfl⟩ := Option.map_eq_some_iff.1 found
  exact ⟨cites.declared isEntry, cites.types isEntry, cites.bodies isEntry⟩

theorem headStep {term next : Term} (cites : state.CitesOnly known)
    (termCites : term.CitesOnly known) (step : HeadStep state term next) :
    next.CitesOnly known := by
  obtain ⟨headCites, argumentsCite⟩ := Phrase.citesOnly_iff_arguments.1 termCites
  cases step with
  | placeholder isPlaceholder solved substituted =>
    rw [isPlaceholder] at headCites
    have solutionCites := cites.solutions solved
    exact (Phrase.CitesOnly.substitute? solutionCites (Phrase.citesOnly_iff_toList.1 headCites)
      substituted).applyTo argumentsCite
  | function _ found _ substituted =>
    obtain ⟨_, _, declared⟩ := Signature.definition?_of_body? found
    have bodyCites := (cites.definition? declared).2.2 rfl
    exact (bodyCites.substitute? (forall_mem_taken argumentsCite) substituted).applyTo
      fun argument present => argumentsCite argument (List.mem_of_mem_drop present)

/-- Reduction cites nothing new. -/
theorem reduce (cites : state.CitesOnly known)
    (reduced : Families.reduce state fuel phrase = .ok result)
    (phraseCites : phrase.CitesOnly known) : result.CitesOnly known := by
  have reached := reached_of_reduce reduced
  clear reduced
  induction reached with
  | univ _ ih | level _ ih | set _ ih =>
    have partCites := ih phraseCites
    exact partCites
  | step step _ ih => exact ih (cites.headStep phraseCites step)
  | sortStep solved substituted _ ih =>
    have solutionCites := cites.solutions solved
    exact ih (Phrase.CitesOnly.substitute? solutionCites
      (Phrase.citesOnly_iff_toList.1 phraseCites) substituted)
  | lub _ flattens _ ih =>
    refine Level.citesOnly_iff.2 fun term present => ?_
    obtain ⟨source, sourcePresent, isLeaf⟩ := flattens.exists_leaf present
    exact (ih source sourcePresent
      (Phrase.citesOnly_iff_atomList.1 phraseCites source sourcePresent)).leaf isLeaf
  | stops => exact phraseCites

/-- Normalisation cites nothing new. -/
theorem normalise (cites : state.CitesOnly known)
    (normalised : Families.normalise state fuel phrase = .ok result)
    (phraseCites : phrase.CitesOnly known) : result.CitesOnly known := by
  induction fuel generalizing category phrase result with
  | zero => cases normalised
  | succ fuel ih =>
    obtain ⟨head, reduced, rebuilds⟩ := normalise_eq_ok_iff.1 normalised
    have headCites := cites.reduce reduced phraseCites
    cases rebuilds with
    | var | const | prop | sizeUniv | omega | noAtoms | noTerms => exact headCites
    | app left right | pi left right | classified left right | atom left right
    | terms left right => exact ⟨ih left headCites.1, ih right headCites.2⟩
    | univ part | level part | set part | placeholder part | sortPlaceholder part =>
      have partCites := ih part headCites
      exact partCites
    | lub atoms =>
      have atomsCite := ih atoms headCites
      exact Level.citesOnly_canonical (Phrase.citesOnly_iff_atomList.1 atomsCite)

/-- The binders at the front of a type and the rest of it cite nothing new. -/
theorem telescopeView (cites : state.CitesOnly known)
    (viewed : Families.telescopeView state fuel ty = .ok (telescope, core))
    (typeCites : ty.CitesOnly known) : telescope.CitesOnly known ∧ core.CitesOnly known := by
  induction fuel generalizing ty core telescope with
  | zero => simp [Families.telescopeView] at viewed
  | succ fuel ih =>
    simp only [Families.telescopeView, bind_eq_ok_iff] at viewed
    obtain ⟨reduced, isReduced, viewed⟩ := viewed
    have reducedCites := cites.reduce isReduced typeCites.term
    cases reduced with
    | pi name info domain codomain =>
      simp only [bind_eq_ok_iff, pure_eq_ok_iff, Prod.mk.injEq] at viewed
      obtain ⟨⟨rest, tail⟩, isRest, rfl, rfl⟩ := viewed
      obtain ⟨restCites, coreCites⟩ := ih isRest reducedCites.2
      exact ⟨List.forall_mem_cons.2 ⟨reducedCites.1, restCites⟩, coreCites⟩
    | _ =>
      simp only [pure_eq_ok_iff, Prod.mk.injEq] at viewed
      obtain ⟨rfl, rfl⟩ := viewed
      exact ⟨by simp [Telescope.CitesOnly], typeCites.sort, reducedCites⟩

end State.CitesOnly

/-! ## Reduction in a wider state -/

/-- Computations go on alike if they do so from every value that is reached. -/
theorem bind_congr_of_ok {ε β : Type} {first first' : Except ε α} {next next' : α → Except ε β}
    (same : first' = first) (alike : ∀ value, first = .ok value → next' value = next value) :
    first' >>= next' = first >>= next := by
  subst same
  cases first' with
  | error error => rfl
  | ok value => exact alike value rfl

theorem foldlM_congr {ε β : Type} {step step' : β → α → Except ε β}
    (alike : ∀ element ∈ list, ∀ value, step' value element = step value element) (start : β) :
    list.foldlM step' start = list.foldlM step start := by
  induction list generalizing start with
  | nil => rfl
  | cons first rest ih =>
    rw [List.forall_mem_cons] at alike
    rw [List.foldlM_cons, List.foldlM_cons, alike.1]
    exact bind_congr_of_ok rfl fun value _ => ih alike.2 value

theorem mapM_congr {ε β : Type} {action action' : α → Except ε β}
    (alike : ∀ element ∈ list, action' element = action element) :
    list.mapM action' = list.mapM action := by
  induction list with
  | nil => rfl
  | cons first rest ih =>
    rw [List.forall_mem_cons] at alike
    rw [List.mapM_cons, List.mapM_cons, alike.1, ih alike.2]

namespace State.Widens

variable {fuel : Nat}

section

variable (widens : narrow.Widens known extra wide)

include widens

theorem solution? (id : Nat) : wide.solution? id = narrow.solution? id := by
  simp only [State.solution?, widens.placeholders]

theorem definition? (isKnown : known path) :
    wide.signature.definition? path = narrow.signature.definition? path := by
  simp only [Signature.definition?, widens.shared isKnown]

/-- What is declared in the narrow state is declared in the wide one. -/
theorem definition?_of_found (found : narrow.signature.definition? path = some definition) :
    wide.signature.definition? path = some definition := by
  rw [widens.definition? (widens.cites.definition? found).1, found]

theorem unfoldHead? {term : Term}
    (termCites : term.CitesOnly known) : unfoldHead? wide term = unfoldHead? narrow term := by
  have headCites := (Phrase.citesOnly_iff_arguments.1 termCites).1
  unfold Families.unfoldHead?
  cases isHead : term.head with
  | placeholder id arguments => simp only [widens.solution?]
  | const path =>
    rw [isHead] at headCites
    simp only [widens.definition? headCites]
  | _ => rfl

/-- What cites known declarations only reduces alike. -/
theorem reduce (phraseCites : phrase.CitesOnly known) :
    reduce wide fuel phrase = reduce narrow fuel phrase := by
  induction fuel generalizing category with
  | zero => simp only [Families.reduce]
  | succ fuel ih =>
    cases phrase with
    | univ part | level part | set part =>
      have partCites : part.CitesOnly known := phraseCites
      simp only [Families.reduce, ih partCites]
    | const | app | placeholder =>
      simp only [Families.reduce]
      refine bind_congr_of_ok (widens.unfoldHead? phraseCites) fun next? unfolded => ?_
      cases next? with
      | none => rfl
      | some next =>
        exact ih (widens.cites.headStep phraseCites (unfoldHead?_eq_some_iff.1 unfolded))
    | sortPlaceholder id arguments =>
      simp only [Families.reduce, widens.solution?]
      split
      · rename_i solution solved
        refine bind_congr_of_ok rfl fun sort substituted => ih ?_
        have solutionCites : solution.CitesOnly known := widens.cites.solutions solved
        exact solutionCites.substitute? (Phrase.citesOnly_iff_toList.1 phraseCites)
          (checked_eq_ok_iff.1 substituted)
      · rfl
    | lub constant atoms =>
      simp only [Families.reduce]
      refine foldlM_congr (fun atom present joined => ?_) _
      rw [ih (Phrase.citesOnly_iff_atomList.1 phraseCites atom present)]
    | _ => rfl

theorem normalise (phraseCites : phrase.CitesOnly known) :
    normalise wide fuel phrase = normalise narrow fuel phrase := by
  induction fuel generalizing category with
  | zero => simp only [Families.normalise]
  | succ fuel ih =>
    simp only [Families.normalise]
    refine bind_congr_of_ok (widens.reduce phraseCites) fun head reduced => ?_
    have headCites := widens.cites.reduce reduced phraseCites
    cases head with
    | app | pi | classified | atom | terms =>
      simp only [rebuild, ih headCites.1, ih headCites.2]
    | univ part | level part | set part | placeholder id part | sortPlaceholder id part
    | lub constant part =>
      have partCites : part.CitesOnly known := headCites
      simp only [rebuild, ih partCites]
    | _ => rfl

theorem telescopeView (typeCites : ty.CitesOnly known) :
    telescopeView wide fuel ty = telescopeView narrow fuel ty := by
  induction fuel generalizing ty with
  | zero => rfl
  | succ fuel ih =>
    simp only [Families.telescopeView]
    refine bind_congr_of_ok (widens.reduce typeCites.term) fun reduced isReduced => ?_
    have reducedCites := widens.cites.reduce isReduced typeCites.term
    cases reduced with
    | pi => simp only [ih reducedCites.2]
    | _ => rfl

theorem determinedVariables {term : Term} (termCites : term.CitesOnly known) :
    determinedVariables wide fuel term = determinedVariables narrow fuel term := by
  induction fuel generalizing term with
  | zero => rfl
  | succ fuel ih =>
    simp only [Families.determinedVariables]
    refine bind_congr_of_ok (widens.reduce termCites) fun reduced isReduced => ?_
    obtain ⟨headCites, argumentsCite⟩ :=
      Phrase.citesOnly_iff_arguments.1 (widens.cites.reduce isReduced termCites)
    split
    · rfl
    · split
      · rename_i path isHead
        rw [isHead] at headCites
        simp only [Signature.constructor?, widens.definition? headCites]
        split
        · rfl
        · congr 1
          refine mapM_congr fun argument present => ih ?_
          have among := List.mem_of_mem_drop (List.mem_of_mem_filter present)
          exact argumentsCite argument among
      · rfl

theorem forcedArguments (typeCites : ty.CitesOnly known) (forcing : Forcing) (parameters : Nat) :
    forcedArguments wide fuel forcing ty parameters =
      forcedArguments narrow fuel forcing ty parameters := by
  simp only [Families.forcedArguments]
  refine bind_congr_of_ok (widens.telescopeView typeCites) fun viewed isViewed => ?_
  have targetCites := (widens.cites.telescopeView isViewed typeCites).2.term
  have argumentsCite := (Phrase.citesOnly_iff_arguments.1 targetCites).2
  cases forcing with
  | everything => rfl
  | patterns =>
    refine bind_congr_of_ok (mapM_congr fun index present => ?_) fun _ _ => rfl
    exact widens.determinedVariables (argumentsCite index (List.mem_of_mem_drop present))

end

end State.Widens

end Families
