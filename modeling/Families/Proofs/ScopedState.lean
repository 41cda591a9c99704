import Families.Context
import Families.Proofs.Levels
import Families.Proofs.SubstitutionLaws

/-!
# Scopes of levels, contexts and states

A state is well scoped when everything that it stores is: declarations are closed, placeholders and
their solutions stand in the placeholder's own scope, and postponed comparisons stand in the scope
that they name.  The operations on levels, sorts, telescopes and contexts keep phrases scoped.
-/

namespace Families

variable {after before state : State} {category : Category} {count depth id index : Nat}
variable {context : Context} {domain : Domain} {path : Path} {kind : PlaceholderKind}
variable {solution : Solution} {telescope : Telescope}
variable {phrase : Phrase category} {position : Nat} {comparison : Comparison} {α : Type}
variable {map : PathMap α}

section Parts

variable {fits fits' : Category → Nat → Nat → Prop}

/-! ## Levels and sorts -/

namespace Level

/-- A level is scoped exactly when its terms are. -/
theorem scoped_iff :
    ∀ {level : Level}, level.Scoped fits depth ↔ ∀ term ∈ terms level, term.Scoped fits depth
  | .lub constant atoms => by simp [Phrase.Scoped, Phrase.scoped_iff_atomList, terms, Level.atoms]

theorem scoped_ofNat (number depth : Nat) : (ofNat number).Scoped fits depth := by
  simp [scoped_iff, ofNat, terms]

theorem scoped_ofTerm {term : Term} (inScope : term.Scoped fits depth) :
    (ofTerm term).Scoped fits depth := by
  cases term with
  | level bound => exact inScope
  | _ => exact ⟨inScope, trivial⟩

theorem scoped_canonical {constant : Nat} {atoms : List Atom}
    (inScope : ∀ atom ∈ atoms, atom.term.Scoped fits depth) :
    (canonical constant atoms).Scoped fits depth := by
  simpa [scoped_iff] using inScope

theorem scoped_join {left right : Level} (leftInScope : left.Scoped fits depth)
    (rightInScope : right.Scoped fits depth) : (join left right).Scoped fits depth := by
  rw [scoped_iff] at *
  intro term present
  rcases mem_terms_join.1 present with onLeft | onRight
  · exact leftInScope term onLeft
  · exact rightInScope term onRight

theorem scoped_raise? {level raised : Level} {by_ : Nat} (inScope : level.Scoped fits depth)
    (succeeded : raise? level by_ = some raised) : raised.Scoped fits depth := by
  rw [eq_raise_of_raise? succeeded]
  rw [scoped_iff] at *
  intro term present
  exact inScope term (mem_terms_raise.1 present)

end Level

/-- The leaves of a phrase stand in its scope. -/
theorem Phrase.Scoped.leaf {leaf : Term} (inScope : phrase.Scoped fits depth)
    (present : leaf ∈ phrase.leaves) : leaf.Scoped fits depth := by
  induction phrase with
  | level bound ih => exact ih inScope present
  | lub constant atoms ih => exact ih inScope present
  | atom term offset rest ihTerm ihRest =>
    exact (List.mem_append.1 present).elim (ihTerm inScope.1) (ihRest inScope.2)
  | _ => simp_all [leaves]

namespace Universe

theorem scoped_ofNat (number depth : Nat) : (ofNat number).Scoped fits depth :=
  (Level.scoped_ofNat number depth : (Level.ofNat number).Scoped fits depth)

/-- The sort above a sort stands in the same scope. -/
theorem scoped_succ? {sort above : Universe} (inScope : sort.Scoped fits depth)
    (succeeded : succ? sort = some above) : above.Scoped fits depth := by
  cases sort with
  | set level =>
    simp only [succ?, Option.bind_eq_bind, Option.bind_eq_some_iff, Option.pure_def,
      Option.some.injEq] at succeeded
    obtain ⟨next, raised, rfl⟩ := succeeded
    exact Level.scoped_raise? inScope raised
  | prop =>
    rw [← Option.some.inj succeeded]
    exact scoped_ofNat 0 depth
  | _ => exact Option.some.inj succeeded ▸ trivial

/-- The sort of a function type is one without parts, that of the codomain, or joined from both. -/
theorem pi?_induction {domain result : Universe} {codomain : Option Universe}
    {holds : Universe → Prop} (succeeded : pi? domain codomain = some result) (prop : holds .prop)
    (sizeUniv : holds .sizeUniv) (omega : holds .omega)
    (same : ∀ sort, codomain = some sort → holds sort)
    (join : ∀ left right, domain = .set left → codomain = some (.set right) →
      holds (.set (Level.join left right))) : holds result := by
  cases codomain with
  | none => exact Option.some.inj succeeded ▸ omega
  | some codomain =>
    have same := same codomain rfl
    cases domain <;> cases codomain <;>
      simp only [pi?, Option.some.injEq, reduceCtorEq] at succeeded <;> subst succeeded <;>
      first
      | exact prop
      | exact sizeUniv
      | exact omega
      | exact same
      | exact join _ _ rfl rfl

/-- The sort of a function type stands in the scope of its parts. -/
theorem scoped_pi? {domain result : Universe} {codomain : Option Universe}
    (domainInScope : domain.Scoped fits depth)
    (codomainInScope : ∀ sort, codomain = some sort → sort.Scoped fits depth)
    (succeeded : pi? domain codomain = some result) : result.Scoped fits depth := by
  refine pi?_induction succeeded trivial trivial trivial codomainInScope ?_
  rintro left right rfl rfl
  exact Level.scoped_join domainInScope (codomainInScope _ rfl)

end Universe

/-! ## Telescopes and contexts -/

namespace Telescope

/-- The type of each binder stands under the binders before it. -/
def Scoped (fits : Category → Nat → Nat → Prop) : (depth : Nat) → Telescope → Prop
  | _, [] => True
  | depth, domain :: rest => domain.ty.Scoped fits depth ∧ Scoped fits (depth + 1) rest

theorem Scoped.mono (inScope : Scoped fits depth telescope)
    (more : ∀ {kind id count}, fits kind id count → fits' kind id count) :
    Scoped fits' depth telescope := by
  induction telescope generalizing depth with
  | nil => trivial
  | cons domain rest ih =>
    exact ⟨inScope.1.mono more (Nat.le_refl depth), ih inScope.2⟩

theorem Scoped.withPlicity (plicity : Plicity) (inScope : Scoped fits depth telescope) :
    Scoped fits depth (telescope.withPlicity plicity) := by
  induction telescope generalizing depth with
  | nil => trivial
  | cons domain rest ih => exact ⟨inScope.1, ih inScope.2⟩

/-- The type of a binder stands under the binders before it. -/
theorem Scoped.of_getElem? (inScope : Scoped fits depth telescope)
    (found : telescope[position]? = some domain) : domain.ty.Scoped fits (depth + position) := by
  induction telescope generalizing depth position with
  | nil => simp at found
  | cons first rest ih =>
    cases position with
    | zero =>
      obtain rfl : first = domain := by simpa using found
      exact inScope.1
    | succ position =>
      have under := ih inScope.2 (by simpa using found)
      exact (by omega : depth + 1 + position = depth + (position + 1)) ▸ under

theorem exists_of_liftedType? {ty : Ty} (found : telescope.liftedType? position = some (some ty)) :
    ∃ domain, telescope[position]? = some domain ∧
      domain.ty.lift? (telescope.length - position) 0 = some ty := by
  unfold liftedType? at found
  split at found
  · cases found
  · rename_i domain domainFound
    obtain ⟨_, lifted, ⟨⟩⟩ := Option.bind_eq_some_iff.1 found
    exact ⟨domain, domainFound, lifted⟩

/-- The type of a binder, raised to stand under the whole telescope. -/
theorem Scoped.liftedType? {ty : Ty} (inScope : Scoped fits depth telescope)
    (found : telescope.liftedType? position = some (some ty)) :
    ty.Scoped fits (depth + telescope.length) := by
  obtain ⟨domain, domainFound, lifted⟩ := exists_of_liftedType? found
  have bounded : position < telescope.length := (List.getElem?_eq_some_iff.1 domainFound).1
  have raised := (inScope.of_getElem? domainFound).lift? lifted
  exact (by omega : depth + position + (telescope.length - position) = depth + telescope.length)
    ▸ raised

theorem scoped_bindPi {codomain : Ty} (domainInScope : domain.ty.Scoped fits depth)
    (codomainInScope : codomain.Scoped fits (depth + 1)) :
    (bindPi domain codomain).Scoped fits depth := by
  refine ⟨?_, domainInScope, codomainInScope⟩
  cases computed : Universe.pi? domain.ty.sort (codomain.sort.strengthen? 1) with
  | none => trivial
  | some sort =>
    exact Universe.scoped_pi? domainInScope.sort
      (fun _ found => codomainInScope.sort.strengthen? found) computed

/-- The function type from binders stands in the scope of the first. -/
theorem scoped_toPi {core : Ty} (telescopeInScope : Scoped fits depth telescope)
    (coreInScope : core.Scoped fits (depth + telescope.length)) :
    (telescope.toPi core).Scoped fits depth := by
  induction telescope generalizing depth with
  | nil => exact coreInScope
  | cons domain rest ih =>
    refine scoped_bindPi telescopeInScope.1 (ih telescopeInScope.2 ?_)
    rw [List.length_cons] at coreInScope
    exact (by omega : depth + 1 + rest.length = depth + (rest.length + 1)) ▸ coreInScope

end Telescope

namespace Context

/-- The type of each variable stands in the scope of the variables after it. -/
def Scoped (fits : Category → Nat → Nat → Prop) : Context → Prop
  | [] => True
  | domain :: rest => domain.ty.Scoped fits rest.length ∧ Scoped fits rest

theorem Scoped.mono (inScope : Scoped fits context)
    (more : ∀ {kind id count}, fits kind id count → fits' kind id count) :
    Scoped fits' context := by
  induction context with
  | nil => trivial
  | cons domain rest ih =>
    exact ⟨inScope.1.mono more (Nat.le_refl _), ih inScope.2⟩

/-- The type of a variable, in the scope of the variables after it. -/
theorem Scoped.of_getElem? (inScope : Scoped fits context) (found : context[index]? = some domain) :
    domain.ty.Scoped fits (context.length - (index + 1)) := by
  induction context generalizing index with
  | nil => simp at found
  | cons first rest ih =>
    cases index with
    | zero =>
      obtain rfl : first = domain := by simpa using found
      exact inScope.1
    | succ index =>
      have bound := ih inScope.2 (by simpa using found)
      simpa using bound

theorem exists_of_typeOf? {ty : Ty} (found : context.typeOf? index = some (some ty)) :
    ∃ domain, context[index]? = some domain ∧ domain.ty.lift? (index + 1) 0 = some ty := by
  unfold typeOf? at found
  split at found
  · cases found
  · rename_i domain domainFound
    obtain ⟨_, lifted, ⟨⟩⟩ := Option.bind_eq_some_iff.1 found
    exact ⟨domain, domainFound, lifted⟩

/-- The type of a variable stands in the whole scope. -/
theorem Scoped.typeOf? {ty : Ty} (inScope : Scoped fits context)
    (found : context.typeOf? index = some (some ty)) : ty.Scoped fits context.length := by
  obtain ⟨domain, domainFound, lifted⟩ := exists_of_typeOf? found
  have bounded : index < context.length := (List.getElem?_eq_some_iff.1 domainFound).1
  have raised := (inScope.of_getElem? domainFound).lift? lifted
  exact (by omega : context.length - (index + 1) + (index + 1) = context.length) ▸ raised

/-- Every variable in scope has a type, unless a number leaves the range of words. -/
theorem typeOf?_ne_some_none (bounded : index < context.length) :
    context.typeOf? index ≠ some none := by
  rw [Context.typeOf?, List.getElem?_eq_getElem bounded]
  cases lifted : context[index].ty.lift? (index + 1) 0 <;> simp [lifted]

theorem toList_identity (context : Context) :
    context.identity.toList = (List.range context.length).map .var := by
  simp [identity]

@[simp]
theorem length_toList_identity (context : Context) :
    context.identity.toList.length = context.length := by
  simp [toList_identity]

theorem scoped_identity (context : Context) : context.identity.Scoped fits context.length := by
  rw [Phrase.scoped_iff_toList, toList_identity]
  simp [Phrase.Scoped]

/-- Leaving the scope of variables that were added restores the context. -/
theorem truncate_append (added context : Context) :
    truncate (added ++ context) context.length = context := by
  simp [truncate]

theorem Scoped.truncate (inScope : Scoped fits context) (length : Nat) :
    Scoped fits (context.truncate length) := by
  have dropped : ∀ count, Scoped fits (context.drop count) := by
    intro count
    induction count generalizing context with
    | zero => exact inScope
    | succ count ih =>
      cases context with
      | nil => exact inScope
      | cons domain rest => exact ih inScope.2
  exact dropped _

end Context

/-! ## Stored data -/

namespace Solution

/-- A solution stands in its scope and is of the given kind. -/
def Scoped (fits : Category → Nat → Nat → Prop) (depth : Nat) :
    PlaceholderKind → Solution → Prop
  | .term _, .term value => value.Scoped fits depth
  | .sort _, .sort value => value.Scoped fits depth
  | .term _, .sort _ => False
  | .sort _, .term _ => False

theorem Scoped.mono (inScope : solution.Scoped fits depth kind)
    (more : ∀ {kind id count}, fits kind id count → fits' kind id count) :
    solution.Scoped fits' depth kind := by
  cases kind <;> cases solution <;>
    first
    | exact inScope.elim
    | exact Phrase.Scoped.mono inScope more (Nat.le_refl depth)

end Solution

namespace PlaceholderKind

/-- The type of a placeholder for a term stands in the placeholder's scope. -/
def Scoped (fits : Category → Nat → Nat → Prop) (depth : Nat) : PlaceholderKind → Prop
  | .term ty => ty.Scoped fits depth
  | .sort _ => True

theorem Scoped.mono (inScope : kind.Scoped fits depth)
    (more : ∀ {kind id count}, fits kind id count → fits' kind id count) :
    kind.Scoped fits' depth := by
  cases kind with
  | term ty => exact Phrase.Scoped.mono inScope more (Nat.le_refl depth)
  | sort belowOmega => trivial

end PlaceholderKind

namespace Placeholder

/-- The type and the solution of a placeholder stand in its own scope, and the solution is of the
placeholder's kind. -/
def Scoped (fits : Category → Nat → Nat → Prop) (placeholder : Placeholder) : Prop :=
  placeholder.kind.Scoped fits placeholder.scope ∧
    ∀ solution, placeholder.solution = some solution →
      solution.Scoped fits placeholder.scope placeholder.kind

theorem Scoped.mono {placeholder : Placeholder} (inScope : placeholder.Scoped fits)
    (more : ∀ {kind id count}, fits kind id count → fits' kind id count) :
    placeholder.Scoped fits' :=
  ⟨inScope.1.mono more, fun solution solved => (inScope.2 solution solved).mono more⟩

end Placeholder

namespace Comparison

/-- Both sides of a comparison stand in a scope. -/
def Scoped (fits : Category → Nat → Nat → Prop) (depth : Nat) : Comparison → Prop
  | .equalTerms left right => left.Scoped fits depth ∧ right.Scoped fits depth
  | .equalSorts left right => left.Scoped fits depth ∧ right.Scoped fits depth
  | .leqSorts left right => left.Scoped fits depth ∧ right.Scoped fits depth

theorem Scoped.mono (inScope : comparison.Scoped fits depth)
    (more : ∀ {kind id count}, fits kind id count → fits' kind id count) :
    comparison.Scoped fits' depth := by
  cases comparison <;>
    exact ⟨Phrase.Scoped.mono inScope.1 more (Nat.le_refl depth),
      Phrase.Scoped.mono inScope.2 more (Nat.le_refl depth)⟩

end Comparison

namespace Kind

/-- The body of a function stands under its arguments, and the sort of a datatype under its
parameters. -/
def Scoped (fits : Category → Nat → Nat → Prop) : Kind → Prop
  | .function arity (some body) => body.Scoped fits arity
  | .datatype known => known.sort.Scoped fits known.parameters
  | _ => True

theorem Scoped.mono {kind : Kind} (inScope : kind.Scoped fits)
    (more : ∀ {kind id count}, fits kind id count → fits' kind id count) : kind.Scoped fits' := by
  unfold Kind.Scoped at inScope ⊢
  split at inScope
  · exact inScope.mono more (Nat.le_refl _)
  · exact inScope.mono more (Nat.le_refl _)
  · trivial

end Kind

namespace Definition

/-- The type of a declaration is closed, and what it stands for is scoped. -/
def Scoped (fits : Category → Nat → Nat → Prop) (definition : Definition) : Prop :=
  definition.ty.Scoped fits 0 ∧ definition.kind.Scoped fits

theorem Scoped.mono {definition : Definition} (inScope : definition.Scoped fits)
    (more : ∀ {kind id count}, fits kind id count → fits' kind id count) :
    definition.Scoped fits' :=
  ⟨inScope.1.mono more (Nat.le_refl 0), inScope.2.mono more⟩

end Definition

end Parts

namespace PathMap

theorem mem_values_of_get? {value : α} (found : map.get? path = some value) :
    value ∈ map.values := by
  obtain ⟨entries, increasing⟩ := map
  simp only [get?, values] at found ⊢
  clear increasing
  induction entries with
  | nil => simp [find?] at found
  | cons first rest ih =>
    simp only [find?] at found
    split at found
    · simp [← Option.some.inj found]
    · exact List.mem_cons_of_mem _ (ih found)

/-- A value after an insertion is the new one or an old one. -/
theorem mem_values_insert {value new : α} (present : value ∈ (map.insert path new).values) :
    value = new ∨ value ∈ map.values := by
  obtain ⟨entry, entryPresent, rfl⟩ := List.mem_map.1 present
  rcases mem_insertInto entryPresent with rfl | old
  · exact .inl rfl
  · exact .inr (List.mem_map_of_mem old)

end PathMap

/-! ## States -/

namespace State

/-- There is a placeholder of a category and a number whose scope has so many variables. -/
inductive Fits (state : State) : Category → (id count : Nat) → Prop where
  | term {id count : Nat} {ty : Term} {solution : Option Solution} :
      state.placeholders[id]? = some ⟨count, .term ty, solution⟩ → Fits state .term id count
  | sort {id count : Nat} {belowOmega : Bool} {solution : Option Solution} :
      state.placeholders[id]? = some ⟨count, .sort belowOmega, solution⟩ → Fits state .sort id count

/-- Everything that a state stores stands in its scope. -/
structure WellScoped (state : State) : Prop where
  signature : ∀ entry ∈ state.signature.values, entry.definition.Scoped state.Fits
  placeholders : ∀ placeholder ∈ state.placeholders, placeholder.Scoped state.Fits
  constraints : ∀ constraint ∈ state.constraints,
    constraint.comparison.Scoped state.Fits constraint.depth

/-- A placeholder of a state is still there later, with the solution that it had. -/
structure Grows (before after : State) : Prop where
  signature : after.signature = before.signature
  placeholders : ∀ (id : Nat) (placeholder : Placeholder),
    before.placeholders[id]? = some placeholder →
    ∃ solution, after.placeholders[id]? = some ⟨placeholder.scope, placeholder.kind, solution⟩ ∧
      (placeholder.solution.isSome → solution = placeholder.solution)
  constraints : before.constraints <+: after.constraints

theorem Grows.refl (state : State) : state.Grows state where
  signature := rfl
  placeholders _ placeholder found := ⟨placeholder.solution, found, fun _ => rfl⟩
  constraints := List.prefix_refl _

theorem Grows.trans {first second third : State} (earlier : first.Grows second)
    (later : second.Grows third) :
    first.Grows third where
  signature := later.signature.trans earlier.signature
  placeholders := by
    intro id placeholder found
    obtain ⟨between, foundBetween, keptBetween⟩ := earlier.placeholders id placeholder found
    obtain ⟨solution, foundAfter, keptAfter⟩ := later.placeholders id _ foundBetween
    refine ⟨solution, foundAfter, fun solved => ?_⟩
    have same := keptBetween solved
    rw [keptAfter (same ▸ solved)]
    exact same
  constraints := earlier.constraints.trans later.constraints

/-- What fits keeps fitting. -/
theorem Grows.fits (grows : before.Grows after) (fits : before.Fits category id count) :
    after.Fits category id count := by
  cases fits with
  | term found =>
    obtain ⟨solution, foundAfter, _⟩ := grows.placeholders id _ found
    exact .term foundAfter
  | sort found =>
    obtain ⟨solution, foundAfter, _⟩ := grows.placeholders id _ found
    exact .sort foundAfter

/-- A phrase that is scoped stays scoped. -/
theorem Grows.scoped (grows : before.Grows after) (inScope : phrase.Scoped before.Fits depth) :
    phrase.Scoped after.Fits depth :=
  inScope.mono grows.fits (Nat.le_refl depth)

/-- A solution of a placeholder is kept. -/
theorem Grows.solution? (grows : before.Grows after)
    (solved : before.solution? id = some solution) : after.solution? id = some solution := by
  unfold State.solution? at solved ⊢
  cases found : before.placeholders[id]? with
  | none => simp [found] at solved
  | some placeholder =>
    simp only [found] at solved
    obtain ⟨kept, foundAfter, keeps⟩ := grows.placeholders id placeholder found
    simp only [foundAfter]
    rw [keeps (by simp [solved]), solved]

/-! ## What a well-scoped state stores -/

/-- A declaration of a well-scoped state is closed. -/
theorem WellScoped.definition {definition : Definition} (wellScoped : state.WellScoped)
    (found : state.signature.definition? path = some definition) :
    definition.Scoped state.Fits := by
  obtain ⟨entry, entryFound, rfl⟩ := Option.map_eq_some_iff.1 found
  exact wellScoped.signature entry (PathMap.mem_values_of_get? entryFound)

/-- A solution of a placeholder for a term is a term of the placeholder's scope. -/
theorem WellScoped.termSolution (wellScoped : state.WellScoped) (fits : state.Fits .term id count)
    (solved : state.solution? id = some solution) :
    ∃ term, solution = .term term ∧ term.Scoped state.Fits count := by
  cases fits with
  | term found =>
    simp only [solution?, found] at solved
    have solutionInScope :=
      (wellScoped.placeholders _ (List.mem_of_getElem? found)).2 solution solved
    cases solution with
    | sort sort => exact solutionInScope.elim
    | term term => exact ⟨term, rfl, solutionInScope⟩

/-- A solution of a placeholder for a sort is a sort of the placeholder's scope. -/
theorem WellScoped.sortSolution (wellScoped : state.WellScoped) (fits : state.Fits .sort id count)
    (solved : state.solution? id = some solution) :
    ∃ sort, solution = .sort sort ∧ sort.Scoped state.Fits count := by
  cases fits with
  | sort found =>
    simp only [solution?, found] at solved
    have solutionInScope :=
      (wellScoped.placeholders _ (List.mem_of_getElem? found)).2 solution solved
    cases solution with
    | term term => exact solutionInScope.elim
    | sort sort => exact ⟨sort, rfl, solutionInScope⟩

/-! ## Changes of a state -/

/-- A change that keeps what fits and stores only scoped data keeps a state well scoped. -/
theorem WellScoped.of_stored (wellScoped : before.WellScoped)
    (fits : ∀ {category id count}, before.Fits category id count → after.Fits category id count)
    (signature : ∀ entry ∈ after.signature.values,
      entry ∈ before.signature.values ∨ entry.definition.Scoped after.Fits)
    (placeholders : ∀ placeholder ∈ after.placeholders,
      placeholder ∈ before.placeholders ∨ placeholder.Scoped after.Fits)
    (constraints : ∀ constraint ∈ after.constraints, constraint ∈ before.constraints ∨
      constraint.comparison.Scoped after.Fits constraint.depth) :
    after.WellScoped where
  signature entry present :=
    (signature entry present).elim (fun old => (wellScoped.signature entry old).mono fits) id
  placeholders placeholder present :=
    (placeholders placeholder present).elim
      (fun old => (wellScoped.placeholders placeholder old).mono fits) id
  constraints constraint present :=
    (constraints constraint present).elim
      (fun old => (wellScoped.constraints constraint old).mono fits) id

theorem grows_addPlaceholder (state : State) (scope : Nat) (kind : PlaceholderKind) :
    state.Grows (state.addPlaceholder scope kind) where
  signature := rfl
  placeholders := by
    intro id placeholder found
    refine ⟨placeholder.solution, ?_, fun _ => rfl⟩
    have bounded : id < state.placeholders.length := (List.getElem?_eq_some_iff.1 found).1
    rw [addPlaceholder, List.getElem?_append_left bounded, found]
  constraints := List.prefix_refl _

theorem getElem?_addPlaceholder (state : State) (scope : Nat) (kind : PlaceholderKind) :
    (state.addPlaceholder scope kind).placeholders[state.placeholders.length]? =
      some ⟨scope, kind, none⟩ := by
  simp [addPlaceholder]

theorem WellScoped.addPlaceholder {scope : Nat} (wellScoped : state.WellScoped)
    (inScope : kind.Scoped state.Fits scope) : (state.addPlaceholder scope kind).WellScoped := by
  have grows := state.grows_addPlaceholder scope kind
  refine wellScoped.of_stored grows.fits (fun _ => .inl) ?_ (fun _ => .inl)
  intro placeholder present
  rcases List.mem_append.1 present with old | new
  · exact .inl old
  · rw [List.mem_singleton.1 new]
    exact .inr ⟨inScope.mono grows.fits, fun _ solved => nomatch solved⟩

theorem grows_postpone (state : State) (depth : Nat) (comparison : Comparison) :
    state.Grows (state.postpone depth comparison) where
  signature := rfl
  placeholders _ placeholder found := ⟨placeholder.solution, found, fun _ => rfl⟩
  constraints := List.prefix_append _ _

theorem WellScoped.postpone (wellScoped : state.WellScoped)
    (inScope : comparison.Scoped state.Fits depth) :
    (state.postpone depth comparison).WellScoped := by
  have grows := state.grows_postpone depth comparison
  refine wellScoped.of_stored grows.fits (fun _ => .inl) (fun _ => .inl) ?_
  intro constraint present
  rcases List.mem_append.1 present with old | new
  · exact .inl old
  · rw [List.mem_singleton.1 new]
    exact .inr (inScope.mono grows.fits)

/-- Solving succeeds exactly for a placeholder without a solution, and sets its solution. -/
theorem solve_eq_ok_iff :
    state.solve id solution = .ok after ↔
      ∃ scope kind, state.placeholders[id]? = some ⟨scope, kind, none⟩ ∧
        after = { state with
          placeholders := state.placeholders.set id ⟨scope, kind, some solution⟩ } := by
  unfold State.solve
  split
  · simp_all
  · simp_all
  · rename_i scope kind found
    constructor
    · intro succeeded
      exact ⟨scope, kind, found, (Except.ok.inj succeeded).symm⟩
    · rintro ⟨_, _, found', rfl⟩
      rw [found] at found'
      simp_all

theorem grows_solve (succeeded : state.solve id solution = .ok after) : state.Grows after := by
  obtain ⟨scope, kind, unsolved, rfl⟩ := solve_eq_ok_iff.1 succeeded
  refine ⟨rfl, ?_, List.prefix_refl _⟩
  intro other placeholder found
  by_cases same : id = other
  · subst same
    rw [unsolved] at found
    obtain rfl := Option.some.inj found
    have bounded : id < state.placeholders.length := (List.getElem?_eq_some_iff.1 unsolved).1
    exact ⟨some solution, by simp [bounded], fun solved => nomatch solved⟩
  · exact ⟨placeholder.solution, by simpa [List.getElem?_set_ne same] using found, fun _ => rfl⟩

theorem solution?_of_solve (succeeded : state.solve id solution = .ok after) :
    after.solution? id = some solution := by
  obtain ⟨scope, kind, unsolved, rfl⟩ := solve_eq_ok_iff.1 succeeded
  have bounded : id < state.placeholders.length := (List.getElem?_eq_some_iff.1 unsolved).1
  simp [solution?, bounded]

theorem solution?_of_solve_of_ne {other : Nat} (succeeded : state.solve id solution = .ok after)
    (different : other ≠ id) : after.solution? other = state.solution? other := by
  obtain ⟨scope, kind, _, rfl⟩ := solve_eq_ok_iff.1 succeeded
  simp [solution?, List.getElem?_set_ne different.symm]

theorem WellScoped.solve (wellScoped : state.WellScoped)
    (succeeded : state.solve id solution = .ok after)
    (inScope : ∀ scope kind, state.placeholders[id]? = some ⟨scope, kind, none⟩ →
      solution.Scoped state.Fits scope kind) :
    after.WellScoped := by
  have grows := grows_solve succeeded
  obtain ⟨scope, kind, unsolved, rfl⟩ := solve_eq_ok_iff.1 succeeded
  refine wellScoped.of_stored grows.fits (fun _ => .inl) ?_ (fun _ => .inl)
  intro placeholder present
  rcases List.mem_or_eq_of_mem_set present with old | rfl
  · exact .inl old
  · have kindInScope := (wellScoped.placeholders _ (List.mem_of_getElem? unsolved)).1
    refine .inr ⟨kindInScope.mono grows.fits, fun found solved => ?_⟩
    rw [← Option.some.inj solved]
    exact (inScope scope kind unsolved).mono grows.fits

/-- Solving a placeholder that exists and is unsolved succeeds. -/
theorem exists_solve_eq_ok (solution : Solution) (fits : state.Fits category id count)
    (unsolved : state.solution? id = none) : ∃ after, state.solve id solution = .ok after := by
  have succeeds : ∀ {scope kind solved}, state.placeholders[id]? = some ⟨scope, kind, solved⟩ →
      ∃ after, state.solve id solution = .ok after := by
    intro scope kind solved found
    simp only [solution?, found] at unsolved
    subst unsolved
    exact ⟨_, solve_eq_ok_iff.2 ⟨_, _, found, rfl⟩⟩
  cases fits with
  | term found => exact succeeds found
  | sort found => exact succeeds found

end State

end Families
