import Families.Proofs.Substitutivity

/-!
# Conversion is a decision procedure

Where no placeholder occurs, the comparison of two terms with normal forms comes to an end, leaves
the state as it was, and succeeds exactly when the normal forms agree.  Agreement looks into terms
and takes levels as they stand.  Where the atoms of the levels are told apart from each other and
from the terms around them by their essences, it is the equality of the essences of the normal
forms, which is symmetric and transitive and knows no names.
-/

namespace Families

open Filter

variable {fuel : Nat} {info : ArgInfo} {name : Name} {argument function right term : Term}
variable {codomain domain : Ty}

/-! ## Agreement of normal forms -/

variable {allowed : Set Term}

namespace Phrase

/-- No application is marked irrelevant, except in levels and in the sorts of types, no level is
applied, and the atoms of levels are allowed. -/
structure Plain (allowed : Set Term) {category : Category} (phrase : Phrase category) : Prop where
  relevant : phrase.Relevant
  tame : phrase.Tame allowed

namespace Plain

theorem app (plain : (Phrase.app function argument info).Plain allowed) :
    function.Plain allowed ∧ argument.Plain allowed :=
  ⟨⟨plain.relevant.2.1, plain.tame.2.1⟩, ⟨plain.relevant.2.2, plain.tame.2.2⟩⟩

theorem pi (plain : (Phrase.pi name info domain codomain).Plain allowed) :
    domain.term.Plain allowed ∧ codomain.term.Plain allowed :=
  ⟨⟨plain.relevant.1.term, plain.tame.1.term⟩, ⟨plain.relevant.2.term, plain.tame.2.term⟩⟩

end Plain
end Phrase

namespace Agrees

variable {left right : Term}

/-- Agreement is symmetric where no argument is irrelevant. -/
theorem symm (agrees : Agrees left right) (leftRelevant : left.Relevant)
    (rightRelevant : right.Relevant) : Agrees right left := by
  induction agrees with
  | refl term => exact .refl term
  | app _ _ ihFunction ihArgument =>
    refine .app (ihFunction leftRelevant.2.1 rightRelevant.2.1) fun _ => ?_
    exact ihArgument leftRelevant.1 leftRelevant.2.2 rightRelevant.2.2
  | pi same _ _ ihDomain ihCodomain =>
    exact .pi same.symm (ihDomain leftRelevant.1.term rightRelevant.1.term)
      (ihCodomain leftRelevant.2.term rightRelevant.2.term)
  | univ same => exact .univ same.symm
  | level same => exact .level same.symm
  | wrapped term => exact .unwrapped term
  | unwrapped term => exact .wrapped term

end Agrees

/-! ## Sameness of essences -/

namespace Phrase

variable {category : Category}

/-- The terms that the phrase consists of and that are no levels, outside of levels and of the sorts
of types. -/
def subterms : {category : Category} → Phrase category → List Term
  | _, app function argument info =>
    app function argument info :: (function.subterms ++ argument.subterms)
  | _, pi name info domain codomain =>
    pi name info domain codomain :: (domain.subterms ++ codomain.subterms)
  | _, classified _ term => term.subterms
  | _, var index => [var index]
  | _, const path => [const path]
  | _, univ sort => [univ sort]
  | _, placeholder id arguments => [placeholder id arguments]
  | _, _ => []

theorem mem_subterms_self (noLevel : ¬term.IsLevel) : term ∈ term.subterms := by
  cases term with
  | level => exact absurd trivial noLevel
  | _ => simp [subterms]

/-- Every subterm of the phrase that has the essence of an allowed term is this term. -/
def Distinct (allowed : Set Term) (phrase : Phrase category) : Prop :=
  ∀ subterm ∈ phrase.subterms, ∀ atom ∈ allowed, atom.essence = subterm.essence → subterm = atom

/-- The phrase is plain, and its subterms are told apart from atoms by their essences. -/
structure Clear (allowed : Set Term) (phrase : Phrase category) : Prop extends
    Plain allowed phrase where
  /-- The subterms are told apart from atoms. -/
  distinct : phrase.Distinct allowed

namespace Clear

theorem app (clear : (Phrase.app function argument info).Clear allowed) :
    function.Clear allowed ∧ argument.Clear allowed := by
  refine ⟨⟨clear.toPlain.app.1, fun part present => clear.distinct part ?_⟩,
    ⟨clear.toPlain.app.2, fun part present => clear.distinct part ?_⟩⟩
  · exact .tail _ (List.mem_append_left _ present)
  · exact .tail _ (List.mem_append_right _ present)

theorem pi (clear : (Phrase.pi name info domain codomain).Clear allowed) :
    domain.term.Clear allowed ∧ codomain.term.Clear allowed := by
  refine ⟨⟨clear.toPlain.pi.1, fun part present => clear.distinct part ?_⟩,
    ⟨clear.toPlain.pi.2, fun part present => clear.distinct part ?_⟩⟩
  · cases domain
    exact .tail _ (List.mem_append_left _ present)
  · cases codomain
    exact .tail _ (List.mem_append_right _ present)

end Clear

/-- The essence of the level that a term stands for. -/
theorem essence_ofTerm (term : Term) : (Level.ofTerm term).essence = Level.ofTerm term.essence := by
  have same : term.essence = Level.unwrapped (Level.ofTerm term).essence := by
    by_cases isLevel : term.IsLevel
    · cases term with
      | level => rfl
      | _ => exact isLevel.elim
    · rw [Level.ofTerm_of_not_isLevel isLevel]
      exact (essence_wrapped term).symm
  rw [same, (flat_essence _).ofTerm_unwrapped]

/-- A term with the essence of a level has the essence of an atom. -/
theorem exists_mem_of_essence_eq {bound : Level}
    (same : (Phrase.level bound).essence = term.essence) (noLevel : ¬term.IsLevel)
    (tame : bound.Tame allowed) (flat : Level.Flat bound) :
    ∃ atom ∈ allowed, atom.essence = term.essence := by
  have present : term.essence ∈ (Phrase.level bound).essence.leaves := by
    rw [same, leaves_of_not_isLevel (not_isLevel_essence noLevel)]
    exact List.mem_singleton.2 rfl
  obtain ⟨leaf, leafPresent, isLeaf⟩ := (mem_leaves_essence (Phrase.level bound)).1 present
  exact ⟨leaf, (tame.of_mem_leaves flat leafPresent).1, isLeaf⟩

/-- The level that a clear normal form stands for is tame, if it has the essence of a level. -/
theorem Clear.tame_ofTerm {bound : Level} (clear : term.Clear allowed)
    (same : (Phrase.level bound).essence = term.essence) (tame : bound.Tame allowed)
    (flat : Level.Flat bound) : (Level.ofTerm term).Tame allowed := by
  by_cases isLevel : term.IsLevel
  · cases term with
    | level => exact clear.tame
    | _ => exact isLevel.elim
  · obtain ⟨atom, isAllowed, sameAtom⟩ := exists_mem_of_essence_eq same isLevel tame flat
    obtain rfl := clear.distinct term (mem_subterms_self isLevel) atom isAllowed sameAtom
    rw [Level.ofTerm_of_not_isLevel isLevel]
    exact ⟨isAllowed, clear.tame, trivial⟩

/-- The level that a normal form stands for is canonical. -/
theorem IsCanonical.ofTerm (isCanonical : term.IsCanonical) : (Level.ofTerm term).IsCanonical := by
  by_cases isLevel : term.IsLevel
  · cases term with
    | level => exact isCanonical
    | _ => exact isLevel.elim
  · rw [Level.ofTerm_of_not_isLevel isLevel]
    refine ⟨?_, (Level.Flattens.leaf isLevel).flat⟩
    simp [Level.Canonical, Level.Increasing, Level.atoms, Level.constant]

theorem IsCanonical.flat :
    ∀ {bound : Level}, bound.IsCanonical → Level.Flat bound
  | lub _ _, isCanonical => isCanonical.2

theorem app_of_essence_eq (same : (app function argument info).essence = right.essence)
    (noLevel : ¬right.IsLevel) :
    ∃ function' argument' info', right = app function' argument' info' ∧
      function.essence = function'.essence ∧ argument.essence = argument'.essence := by
  cases right with
  | level => exact absurd trivial noLevel
  | app function' argument' info' =>
    obtain ⟨functions, arguments⟩ : _ ∧ _ := by simpa [essence] using same
    exact ⟨function', argument', info', rfl, functions, arguments⟩
  | _ => simp [essence] at same

theorem pi_of_essence_eq (same : (pi name info domain codomain).essence = right.essence)
    (noLevel : ¬right.IsLevel) :
    ∃ name' info' domain' codomain', right = pi name' info' domain' codomain' ∧
      info.plicity = info'.plicity ∧ domain.term.essence = domain'.term.essence ∧
      codomain.term.essence = codomain'.term.essence := by
  cases right with
  | level => exact absurd trivial noLevel
  | pi name' info' domain' codomain' =>
    obtain ⟨plicities, domains, codomains⟩ : _ ∧ _ ∧ _ := by simpa [essence] using same
    refine ⟨name', info', domain', codomain', rfl, plicities, ?_, ?_⟩
    · cases domain
      cases domain'
      exact (classified.inj domains).2
    · cases codomain
      cases codomain'
      exact (classified.inj codomains).2
  | _ => simp [essence] at same

end Phrase

/-- Clear normal forms with the same essence can be followed, if atoms are told apart by their
essences. -/
theorem matching_essence (apart : Set.InjOn Phrase.essence allowed) :
    Matching fun left right =>
      left.essence = right.essence ∧ left.Clear allowed ∧ right.Clear allowed where
  ofTerm_eq := by
    rintro left right ⟨same, leftClear, rightClear⟩ isLevel leftCanonical rightCanonical
    have tame : (Level.ofTerm left).Tame allowed ∧ (Level.ofTerm right).Tame allowed := by
      rcases isLevel with isLevel | isLevel
      · cases left with
        | level bound =>
          have leftBound : bound.IsCanonical := leftCanonical
          exact ⟨leftClear.tame, rightClear.tame_ofTerm same leftClear.tame leftBound.flat⟩
        | _ => exact isLevel.elim
      · cases right with
        | level bound =>
          have rightBound : bound.IsCanonical := rightCanonical
          exact ⟨leftClear.tame_ofTerm same.symm rightClear.tame rightBound.flat, rightClear.tame⟩
        | _ => exact isLevel.elim
    refine Phrase.eq_of_essence_eq apart ?_ tame.1 tame.2 leftCanonical.ofTerm rightCanonical.ofTerm
    rw [Phrase.essence_ofTerm, Phrase.essence_ofTerm, same]
  eq_of_atomic := by
    rintro left right ⟨same, _⟩ isAtomic noLevel
    exact isAtomic.eq_of_essence_eq noLevel same
  univ := by
    rintro sort right ⟨same, leftClear, rightClear⟩ noLevel
    cases right with
    | level => exact absurd trivial noLevel
    | univ sort' =>
      have sameSort : sort.essence = sort'.essence := by simpa [Phrase.essence] using same
      exact ⟨sort', rfl, fun leftNormal rightNormal =>
        leftNormal.eq_of_essence_eq apart rightNormal sameSort leftClear.tame rightClear.tame⟩
    | _ => simp [Phrase.essence] at same
  pi := by
    rintro name info domain codomain right ⟨same, leftClear, rightClear⟩ noLevel
    obtain ⟨_, _, _, _, rfl, plicities, domains, codomains⟩ := Phrase.pi_of_essence_eq same noLevel
    exact ⟨_, _, _, _, rfl, plicities, ⟨domains, leftClear.pi.1, rightClear.pi.1⟩,
      ⟨codomains, leftClear.pi.2, rightClear.pi.2⟩⟩
  app := by
    rintro function argument right info related noLevel
    obtain ⟨_, _, _, isApp, _, _⟩ := Phrase.app_of_essence_eq related.1 noLevel
    have leftNoLevel : ¬(Phrase.app function argument info).IsLevel := not_false
    refine ⟨_, _, _, isApp, @Phrase.forall₂_spine
      (fun left right => left.essence = right.essence ∧ left.Clear allowed ∧ right.Clear allowed)
      ?_ ?_ _ _ related leftNoLevel noLevel⟩
    · rintro function argument right info ⟨same, leftClear, rightClear⟩ noLevel
      obtain ⟨_, _, _, rfl, functions, arguments⟩ := Phrase.app_of_essence_eq same noLevel
      exact ⟨leftClear.tame.1, _, _, _, rfl, rightClear.tame.1,
        ⟨functions, leftClear.app.1, rightClear.app.1⟩,
        ⟨arguments, leftClear.app.2, rightClear.app.2⟩⟩
    · rintro left right ⟨same, _⟩ alone leftNoLevel rightNoLevel
      cases right with
      | app =>
        obtain ⟨_, _, _, rfl, _⟩ := Phrase.app_of_essence_eq same.symm leftNoLevel
        simp at alone
      | _ => rfl

/-! ## Verdicts -/

namespace Checker

/-- The term is in scope and without placeholders, and has the normal form. -/
structure Settles (checker : Checker) (term normal : Term) : Prop where
  ground : term.Ground
  inScope : checker.InScope term
  normalised : ∃ fuel, normalise checker.state fuel term = .ok normal

/-- The terms are found equal, given so much fuel. -/
def Converts (checker : Checker) (fuel : Nat) (left right : Term) : Prop :=
  ((CheckM.equalTerm left right).run { checker with fuel }).result = .ok ()

variable {checker : Checker} {left right leftNormal rightNormal : Term}

namespace Settles

theorem groundInScope {normal : Term} (settles : checker.Settles term normal) :
    term.Scoped (fun _ _ _ => False) checker.context.length :=
  settles.inScope.ground_iff.2 (Phrase.ground_iff.1 settles.ground)

theorem hasNormalForm {normal : Term} (settles : checker.Settles term normal)
    (wellScoped : checker.WellScoped) : HasNormalForm checker.state term normal := by
  obtain ⟨fuel, normalised⟩ := settles.normalised
  exact wellScoped.state.hasNormalForm_of_ground settles.groundInScope normalised

end Settles

/-- Terms that are found equal have normal forms that agree. -/
theorem Converts.agrees (converts : checker.Converts fuel left right)
    (wellScoped : checker.WellScoped) (ground : checker.state.Ground)
    (leftSettles : checker.Settles left leftNormal)
    (rightSettles : checker.Settles right rightNormal) : Agrees leftNormal rightNormal := by
  have wellScoped' : WellScoped { checker with fuel } := ⟨wellScoped.state, wellScoped.context⟩
  exact CheckM.agrees_of_equalTerm wellScoped' ground leftSettles.ground rightSettles.ground
    leftSettles.inScope rightSettles.inScope converts (leftSettles.hasNormalForm wellScoped)
    (rightSettles.hasNormalForm wellScoped)

/-- Terms whose normal forms can be followed are found equal. -/
theorem eventually_converts {alike : Term → Term → Prop} (matching : Matching alike)
    (wellScoped : checker.WellScoped) (ground : checker.state.Ground)
    (leftSettles : checker.Settles left leftNormal)
    (rightSettles : checker.Settles right rightNormal) (related : alike leftNormal rightNormal) :
    ∀ᶠ fuel in atTop, checker.Converts fuel left right := by
  obtain ⟨_, leftNormalised⟩ := leftSettles.normalised
  obtain ⟨_, rightNormalised⟩ := rightSettles.normalised
  filter_upwards [ConvM.eventually_confirms_equalTerm matching wellScoped.state ground
    leftSettles.groundInScope rightSettles.groundInScope leftNormalised rightNormalised]
    with fuel confirms
  exact (CheckM.yields_equalTerm_iff.2 ⟨checker.state, confirms.yields related, rfl⟩).1

/-- Terms are found equal exactly when their normal forms agree. -/
theorem eventually_converts_iff_agrees (wellScoped : checker.WellScoped)
    (ground : checker.state.Ground) (leftSettles : checker.Settles left leftNormal)
    (rightSettles : checker.Settles right rightNormal) (leftPlain : leftNormal.Plain allowed)
    (rightPlain : rightNormal.Plain allowed) :
    ∀ᶠ fuel in atTop, checker.Converts fuel left right ↔ Agrees leftNormal rightNormal := by
  by_cases agrees : Agrees leftNormal rightNormal
  · filter_upwards [eventually_converts matching_agrees wellScoped ground leftSettles
      rightSettles ⟨agrees.whole id leftPlain.relevant, leftPlain.tame, rightPlain.tame⟩]
      with fuel converts
    exact iff_of_true converts agrees
  · refine .of_forall fun fuel => iff_of_false (fun converts => agrees ?_) agrees
    exact converts.agrees wellScoped ground leftSettles rightSettles

/-- Terms are found equal exactly when their normal forms have the same essence. -/
theorem eventually_converts_iff_essence_eq (apart : Set.InjOn Phrase.essence allowed)
    (wellScoped : checker.WellScoped) (ground : checker.state.Ground)
    (leftSettles : checker.Settles left leftNormal)
    (rightSettles : checker.Settles right rightNormal) (leftClear : leftNormal.Clear allowed)
    (rightClear : rightNormal.Clear allowed) :
    ∀ᶠ fuel in atTop,
      checker.Converts fuel left right ↔ leftNormal.essence = rightNormal.essence := by
  by_cases same : leftNormal.essence = rightNormal.essence
  · filter_upwards [eventually_converts (matching_essence apart) wellScoped ground leftSettles
      rightSettles ⟨same, leftClear, rightClear⟩] with fuel converts
    exact iff_of_true converts same
  · refine .of_forall fun fuel => iff_of_false (fun converts => same ?_) same
    have agrees := converts.agrees wellScoped ground leftSettles rightSettles
    have resembles : Resembles leftNormal rightNormal :=
      agrees.whole (congrArg _) leftClear.relevant
    exact resembles.essence_eq

end Checker

namespace CheckM

/-- A comparison that comes to an end leaves the checker as it was. -/
theorem convert_of_concludes {checker : Checker} {comparison : ConvM Unit}
    (concludes : Concludes comparison checker.state) :
    ((convert comparison).run checker).state = checker ∧
      (((convert comparison).run checker).result = .ok () ∨
        ∃ error, ((convert comparison).run checker).result = .error (.error error)) := by
  obtain ⟨state_eq, result_ne⟩ := concludes
  have attempted : ((attempt comparison).run checker).state = checker := by
    simp only [attempt, state_eq]
  rw [convert]
  cases answered : (comparison.run checker.state).result with
  | ok value =>
    have compared : ((attempt comparison).run checker).result = .ok (.ok value) := by
      simp only [attempt, answered]
    rw [Attempt.run_bind_of_ok compared, attempted]
    exact ⟨rfl, .inl rfl⟩
  | error failure =>
    cases failure with
    | halt reason => exact absurd answered (result_ne reason)
    | error error =>
      have compared : ((attempt comparison).run checker).result = .ok (.error error) := by
        simp only [attempt, answered]
      rw [Attempt.run_bind_of_ok compared, attempted]
      exact ⟨rfl, .inr ⟨_, rfl⟩⟩

/-- The comparison of terms without placeholders decides whether their normal forms agree, and
leaves everything as it was.  It is symmetric.  Where the atoms of levels are told apart from each
other and from the other parts of the normal forms by their essences, it decides whether the normal
forms have the same essence; so it is transitive, and a term may be replaced by one with the same
essence. -/
theorem equalTerm_decides_normalForms
    {checker : Checker}
    {left right leftNormal rightNormal : Term}
    (wellScoped : checker.WellScoped)
    (ground : checker.state.Ground)
    (leftSettles : checker.Settles left leftNormal)
    (rightSettles : checker.Settles right rightNormal)
    (leftPlain : leftNormal.Plain allowed)
    (rightPlain : rightNormal.Plain allowed) :
    (∀ᶠ fuel in atTop,
      let outcome := (equalTerm left right).run { checker with fuel }
      outcome.state = { checker with fuel } ∧
        (outcome.result = .ok () ∨ ∃ error, outcome.result = .error (.error error)) ∧
        (outcome.result = .ok () ↔ Agrees leftNormal rightNormal) ∧
        (checker.Converts fuel left right ↔ checker.Converts fuel right left)) ∧
    (Set.InjOn Phrase.essence allowed → leftNormal.Distinct allowed →
      rightNormal.Distinct allowed →
      (∀ᶠ fuel in atTop,
        (checker.Converts fuel left right ↔ leftNormal.essence = rightNormal.essence)) ∧
      ∀ {other otherNormal : Term}, checker.Settles other otherNormal →
        otherNormal.Clear allowed → ∀ᶠ fuel in atTop,
          (checker.Converts fuel left other → checker.Converts fuel other right →
            checker.Converts fuel left right) ∧
          (left.essence = other.essence →
            (checker.Converts fuel left right ↔ checker.Converts fuel other right))) := by
  constructor
  · obtain ⟨_, leftNormalised⟩ := leftSettles.normalised
    obtain ⟨_, rightNormalised⟩ := rightSettles.normalised
    filter_upwards [ConvM.eventually_confirms_equalTerm (@matching_agrees allowed)
        wellScoped.state ground leftSettles.groundInScope rightSettles.groundInScope leftNormalised
        rightNormalised,
      Checker.eventually_converts_iff_agrees wellScoped ground leftSettles rightSettles leftPlain
        rightPlain,
      Checker.eventually_converts_iff_agrees wellScoped ground rightSettles leftSettles rightPlain
        leftPlain] with fuel confirms forth back
    obtain ⟨sameState, answers⟩ :=
      @convert_of_concludes { checker with fuel } _ confirms.concludes
    refine ⟨sameState, answers, forth, ?_⟩
    rw [forth, back]
    exact ⟨fun agrees => agrees.symm leftPlain.relevant rightPlain.relevant,
      fun agrees => agrees.symm rightPlain.relevant leftPlain.relevant⟩
  · intro apart leftDistinct rightDistinct
    have leftClear : leftNormal.Clear allowed := ⟨leftPlain, leftDistinct⟩
    have rightClear : rightNormal.Clear allowed := ⟨rightPlain, rightDistinct⟩
    have decides := Checker.eventually_converts_iff_essence_eq apart wellScoped ground leftSettles
      rightSettles leftClear rightClear
    refine ⟨decides, fun {other otherNormal} otherSettles otherClear => ?_⟩
    filter_upwards [decides,
      Checker.eventually_converts_iff_essence_eq apart wellScoped ground leftSettles otherSettles
        leftClear otherClear,
      Checker.eventually_converts_iff_essence_eq apart wellScoped ground otherSettles rightSettles
        otherClear rightClear] with fuel toRight toOther fromOther
    rw [toRight, toOther, fromOther]
    refine ⟨Eq.trans, fun same => ?_⟩
    rw [(leftSettles.hasNormalForm wellScoped).essence_eq
      (otherSettles.hasNormalForm wellScoped) same leftClear.tame otherClear.tame]

/-- The function types from the set to a sort of some level, with a name for the variable. -/
def sortFamily (name : Name) (bound : Level) : Term :=
  .pi name {} (.classified (Universe.ofNat 0) (.const ⟨2⟩))
    (.classified (Universe.ofNat 0) (.univ (.set bound)))

/-- The function done twice is found equal to its double in the level of a sort, under another name
of the variable. -/
theorem equalTerm_decides_sortFamily :
    let once (term : Term) : Term := .app (.const ⟨4⟩) term {}
    let height : Term := .app (.const ⟨5⟩) (once (once (.const ⟨3⟩))) {}
    let above : Term := .app (.const ⟨7⟩) (.app (.const ⟨6⟩) (.const ⟨3⟩) {}) {}
    let left : Term := sortFamily ⟨0⟩ (.lub 0 (.atom above 0 .noAtoms))
    let right : Term := sortFamily ⟨1⟩ (.lub 0 (.atom height 1 .noAtoms))
    let leftNormal : Term := sortFamily ⟨0⟩ (.lub 0 (.atom height 1 .noAtoms))
    (∀ᶠ fuel in atTop,
      ((equalTerm left right).run { doubled with fuel }).result = .ok () ∧
        ((equalTerm left right).run { doubled with fuel }).state = { doubled with fuel }) ∧
    ∀ᶠ fuel in atTop,
      (doubled.Converts fuel left right ↔ leftNormal.essence = right.essence) := by
  intro once height above left right leftNormal
  have reachable : Reachable doubled := .ends (.initial {} .patterns 40) (.check doubling) rfl
  have leftSettles : doubled.Settles left leftNormal :=
    ⟨Phrase.ground_iff.2 (by rfl), ⟨⟨Universe.scoped_ofNat 0 0, trivial⟩,
      Universe.scoped_ofNat 0 1, ⟨trivial, trivial, trivial⟩, trivial⟩, 40, by decide +kernel⟩
  have rightSettles : doubled.Settles right right :=
    ⟨Phrase.ground_iff.2 (by rfl), ⟨⟨Universe.scoped_ofNat 0 0, trivial⟩,
      Universe.scoped_ofNat 0 1, ⟨trivial, trivial, trivial, trivial⟩, trivial⟩, 40,
      by decide +kernel⟩
  have plain : ∀ name, (sortFamily name (.lub 0 (.atom height 1 .noAtoms))).Plain {height} := by
    intro name
    refine ⟨⟨trivial, trivial⟩, ?_⟩
    simp [sortFamily, Phrase.Tame, Phrase.IsLevel, height, once]
  have distinct :
      ∀ name, (sortFamily name (.lub 0 (.atom height 1 .noAtoms))).Distinct {height} := by
    intro name
    simp [sortFamily, Phrase.Distinct, Phrase.subterms, Phrase.essence, height, once]
  obtain ⟨decides, whereApart⟩ := equalTerm_decides_normalForms reachable.wellScoped
    (by decide +kernel) leftSettles rightSettles (plain _) (plain _)
  refine ⟨?_, (whereApart (Set.injOn_singleton _ _) (distinct _) (distinct _)).1⟩
  filter_upwards [decides] with fuel decides
  obtain ⟨sameState, _, agrees, _⟩ := decides
  exact ⟨agrees.2 (.pi rfl (.refl _) (.refl _)), sameState⟩

/-- A set, and levels over the sets. -/
def rated : List Declaration :=
  [ .postulate "T" (.set 0),
    .postulate "rate" (.arrow (.set 0) (.const "Level")) ]

/-- The rate of a function type does not depend on the name of its variable, and is equal to the
level that consists of it, but not to that level under another name. -/
theorem equalTerm_not_transitive :
    let checker := ((checkDeclarations rated).run (Checker.initial {} .patterns 40)).state
    let points : Ty := .classified (Universe.ofNat 0) (.const ⟨2⟩)
    let rate (name : Name) : Term := .app (.const ⟨3⟩) (.pi name {} points points) {}
    let first : Term := rate ⟨0⟩
    let second : Term := rate ⟨1⟩
    let third : Term := .level (.lub 0 (.atom (rate ⟨1⟩) 0 .noAtoms))
    Reachable checker ∧ checker.state.placeholders = [] ∧
      first.essence = second.essence ∧ second.essence = third.essence ∧
      ((infer first).run checker).result = .ok (.const Path.level) ∧
      ((infer second).run checker).result = .ok (.const Path.level) ∧
      ((infer third).run checker).result = .ok (.const Path.level) ∧
      Families.normalise checker.state 40 first = .ok first ∧
      Families.normalise checker.state 40 second = .ok second ∧
      Families.normalise checker.state 40 third = .ok third ∧
      ((equalTerm first second).run checker).result = .ok () ∧
      ((equalTerm second third).run checker).result = .ok () ∧
      ((equalTerm first third).run checker).result =
        .error (.error (.conversion
          (.unequalLevels (Level.ofTerm first) (Level.ofTerm second)))) := by
  intro checker points rate first second third
  refine ⟨.ends (.initial {} .patterns 40) (.check rated) rfl, ?_, ?_, ?_, ?_⟩
  · decide +kernel
  · simp [first, second, rate, Phrase.essence]
  · exact (Phrase.essence_wrapped second).symm
  · decide +kernel

end CheckM
end Families
