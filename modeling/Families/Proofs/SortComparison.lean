import Families.Proofs.Decision
import Families.Proofs.LevelAlgebra
import Families.Proofs.Renormalisation

/-!
# The comparison of sorts is a partial order

Where no placeholder occurs, sorts with normal forms are compared by the order of the normal forms.
The comparison comes to an end and leaves the state as it was.  So it is reflexive and transitive,
and it goes both ways exactly where the sorts are found equal.
-/

namespace Families

open Filter

variable {state : State} {fuel depth : Nat}

/-! ## Normal forms of levels -/

/-- Atoms have a normal form exactly when their terms have one. -/
theorem exists_normalise_atoms_iff :
    ∀ {atoms : Phrase .atoms}, (∃ fuel normal, normalise state fuel atoms = .ok normal) ↔
      ∀ atom ∈ atoms.atomList, ∃ fuel normal, normalise state fuel atom.term = .ok normal
  | .noAtoms => by simpa using ⟨2, .noAtoms, rfl⟩
  | .atom term offset rest => by
    rw [Phrase.atomList_atom, List.forall_mem_cons, ← exists_normalise_atoms_iff]
    constructor
    · rintro ⟨fuel, normal, normalised⟩
      obtain ⟨fuel, reduced, isReduced, rebuilt⟩ := exists_of_normalise normalised
      cases fuel with
      | zero => cases isReduced
      | succ fuel =>
        obtain rfl := Except.ok.inj isReduced
        cases rebuilt with | atom termNormal restNormal =>
        exact ⟨⟨_, _, termNormal⟩, _, _, restNormal⟩
    · rintro ⟨⟨_, term', termNormal⟩, _, rest', restNormal⟩
      obtain ⟨fuel, ⟨termDone, restDone⟩, positive⟩ := (((eventually_normalise termNormal).and
        (eventually_normalise restNormal)).and (eventually_ge_atTop 1)).exists
      obtain ⟨fuel, rfl⟩ := Nat.exists_eq_add_of_le' positive
      exact ⟨fuel + 2, _, normalise_eq_ok_iff.2 ⟨_, rfl, .atom termDone restDone⟩⟩

/-- A level has a normal form exactly when the terms of the reduced level have one. -/
theorem exists_normalise_level_iff {bound : Level} :
    (∃ fuel normal, normalise state fuel bound = .ok normal) ↔
      ∃ fuel reduced, reduce state fuel bound = .ok reduced ∧
        ∀ term ∈ Level.terms reduced, ∃ fuel normal, normalise state fuel term = .ok normal := by
  have parts : ∀ constant atoms, (∀ term ∈ Level.terms (.lub constant atoms),
      ∃ fuel normal, normalise state fuel term = .ok normal) ↔
      ∃ fuel normal, normalise state fuel atoms = .ok normal := by
    intro constant atoms
    rw [exists_normalise_atoms_iff]
    exact List.forall_mem_map
  constructor
  · rintro ⟨fuel, normal, normalised⟩
    obtain ⟨fuel, reduced, isReduced, rebuilt⟩ := exists_of_normalise normalised
    cases rebuilt with | lub atomsNormal =>
    exact ⟨fuel, _, isReduced, (parts _ _).2 ⟨_, _, atomsNormal⟩⟩
  · rintro ⟨fuel, reduced, isReduced, terms⟩
    cases reduced with
    | lub constant atoms =>
      obtain ⟨_, atoms', atomsNormal⟩ := (parts _ _).1 terms
      obtain ⟨fuel, reducedAgain, atomsDone⟩ :=
        ((eventually_reduce isReduced).and (eventually_normalise atomsNormal)).exists
      exact ⟨fuel + 1, _, normalise_eq_ok_iff.2 ⟨_, reducedAgain, .lub atomsDone⟩⟩

/-- The normal form of a sort over a level is the sort over the normal form of the level. -/
theorem exists_normalise_set {bound normal : Level}
    (normalised : normalise state fuel bound = .ok normal) :
    ∃ fuel, normalise state fuel (Phrase.set bound) = .ok (.set normal) := by
  obtain ⟨_, reduced, isReduced, rebuilt⟩ := exists_of_normalise normalised
  obtain ⟨fuel, done, normalDone⟩ := ((eventually_reduce isReduced).and
    (eventually_normalise_reduced isReduced rebuilt)).exists
  have reaches : reduce state (fuel + 1) (Phrase.set bound) = .ok (.set reduced) := by
    rw [reduce, done]
    rfl
  exact ⟨fuel + 2, normalise_eq_ok_iff.2
    ⟨_, reaches, .set (normalise_of_le normalDone (Nat.le_succ fuel))⟩⟩

/-! ## The order -/

namespace Universe.AtMost

variable {first second third : Universe}

theorem trans (lower : AtMost first second) (upper : AtMost second third) : AtMost first third := by
  cases upper with
  | refl => exact lower
  | prop bound =>
    cases lower
    exact .prop bound
  | set smaller =>
    cases lower with
    | refl => exact .set smaller
    | prop => exact .prop _
    | set smaller' => exact .set fun value => (smaller' value).trans (smaller value)
  | omega notSize =>
    refine .omega ?_
    rintro rfl
    cases lower with
    | refl => exact notSize rfl
    | omega notSize' => exact notSize' rfl

/-- Normal sorts are equal if they lie below each other. -/
theorem antisymm (firstNormal : Families.IsNormal state first)
    (secondNormal : Families.IsNormal state second) (forth : AtMost first second)
    (back : AtMost second first) : first = second := by
  cases forth with
  | refl => rfl
  | prop => cases back
  | set smaller =>
    have larger := set_iff.1 back
    exact congrArg Phrase.set ((isNormal_level_iff.1 firstNormal).1.eq_of_eval_eq
      (isNormal_level_iff.1 secondNormal).1 fun value => (smaller value).antisymm (larger value))
  | omega =>
    cases back <;> rfl

theorem omega_iff : AtMost first .omega ↔ first ≠ .sizeUniv := by
  refine ⟨?_, .omega⟩
  rintro atMost rfl
  cases atMost with
  | omega notSize => exact notSize rfl

theorem sizeUniv_iff : AtMost first .sizeUniv ↔ first = .sizeUniv := by
  constructor
  · intro atMost
    cases atMost
    rfl
  · rintro rfl
    exact .refl _

theorem of_sizeUniv_iff : AtMost .sizeUniv first ↔ first = .sizeUniv := by
  constructor
  · intro atMost
    cases atMost with
    | refl => rfl
    | omega notSize => exact absurd rfl notSize
  · rintro rfl
    exact .refl _

end Universe.AtMost

/-! ## Normal forms of sorts -/

/-- Where there are no placeholders, none occurs in the bodies of functions. -/
theorem State.WellScoped.ground (wellScoped : state.WellScoped)
    (noPlaceholders : state.placeholders = []) : state.Ground := by
  have fits : ∀ {category id count}, ¬state.Fits category id count := by
    intro category id count fits
    cases fits <;> simp_all
  intro entry present
  have inScope := (wellScoped.signature entry present).2
  cases isKind : entry.definition.kind with
  | function arity body =>
    rw [isKind] at inScope
    cases body with
    | none => rfl
    | some body =>
      have bodyGround : body.Ground := ⟨arity, Phrase.Scoped.mono inScope (absurd · fits) le_rfl⟩
      simpa [isKind, Kind.isGround] using Phrase.ground_iff.1 bodyGround
  | _ => rfl

/-- A level has a normal form if each of its atoms has one. -/
theorem exists_normalise_of_atoms {bound : Level}
    (each : ∀ atom ∈ Level.atoms bound, ∃ fuel normal,
      normalise state fuel (Level.ofParts 0 [atom]) = .ok normal) :
    ∃ fuel normal, normalise state fuel bound = .ok normal := by
  have parts : ∀ atom ∈ Level.atoms bound, ∀ᶠ fuel in atTop, ∃ term part,
      reduce state fuel atom.term = .ok term ∧ reducedAtom term atom.offset = .ok part ∧
        ∀ leaf ∈ Level.terms part, ∃ fuel normal, normalise state fuel leaf = .ok normal := by
    intro atom present
    obtain ⟨fuel, reduced, isReduced, leaves⟩ := exists_normalise_level_iff.1 (each atom present)
    cases fuel with
    | zero => cases isReduced
    | succ fuel =>
      simp only [Level.ofParts, reduce, Phrase.atomList_ofAtoms, List.foldlM_cons, List.foldlM_nil,
        bind_eq_ok_iff] at isReduced
      obtain ⟨_, ⟨term, isTerm, part, isPart, same⟩, same'⟩ := isReduced
      obtain rfl := Except.ok.inj same
      obtain rfl := Except.ok.inj same'
      filter_upwards [eventually_reduce isTerm] with fuel reached
      refine ⟨term, part, reached, isPart, ?_⟩
      exact fun leaf isLeaf => leaves leaf (Level.mem_terms_join.2 (.inr isLeaf))
  obtain ⟨fuel, parts⟩ := ((eventually_all_finite (List.finite_toSet _)).2 parts).exists
  cases bound with
  | lub constant atoms =>
    obtain ⟨joined, isJoined⟩ : ∃ joined,
        reduce state (fuel + 1) (.lub constant atoms) = .ok joined := by
      simp only [reduce]
      refine exists_foldlM_eq_ok (fun atom present joined => ?_) _
      obtain ⟨term, part, isTerm, isPart, -⟩ := parts atom present
      simp only [bind_eq_ok_iff]
      exact ⟨_, term, isTerm, part, isPart, rfl⟩
    refine exists_normalise_level_iff.2 ⟨fuel + 1, joined, isJoined, ?_⟩
    simp only [reduce] at isJoined
    let settled (level : Level) : Prop :=
      ∀ leaf ∈ Level.terms level, ∃ fuel normal, normalise state fuel leaf = .ok normal
    have start : settled (Level.ofNat constant) := by simp [settled, Level.ofNat, Level.terms]
    refine holds_of_foldlM start ?_ isJoined
    intro atom present joined next joinedSettled stepped
    obtain ⟨term, part, isTerm, isPart, partSettled⟩ := parts atom present
    simp only [bind_eq_ok_iff] at stepped
    obtain ⟨_, isTerm', _, isPart', same⟩ := stepped
    obtain rfl := Except.ok.inj (isTerm.symm.trans isTerm')
    obtain rfl := Except.ok.inj (isPart.symm.trans isPart')
    obtain rfl := Except.ok.inj same
    exact fun leaf isLeaf => (Level.mem_terms_join.1 isLeaf).elim (joinedSettled leaf)
      (partSettled leaf)

/-- No placeholder occurs in the sort, and each atom of its level has a normal form. -/
structure Universe.Settles (state : State) (sort : Universe) : Prop where
  ground : sort.Ground
  /-- Normalisation of each atom, raised by its offset, comes to an end. -/
  atoms : ∀ bound, sort = .set bound → ∀ atom ∈ Level.atoms bound, ∃ fuel normal,
    normalise state fuel (Level.ofParts 0 [atom]) = .ok normal

/-- The sort has a normal form, without placeholders. -/
structure Universe.HasForm (state : State) (sort normal : Universe) : Prop where
  normalised : ∃ fuel, normalise state fuel sort = .ok normal
  hasNormalForm : HasNormalForm state sort normal
  isNormal : Families.IsNormal state normal
  ground : normal.Ground

theorem Universe.hasForm_of_normalise {sort normal : Universe} (wellScoped : state.WellScoped)
    (inScope : sort.Scoped state.Fits depth) (normalised : normalise state fuel sort = .ok normal)
    (ground : normal.Ground) : Universe.HasForm state sort normal := by
  obtain ⟨normalises, normalInScope⟩ := normalises_of_normalise wellScoped normalised inScope
  exact ⟨⟨fuel, normalised⟩, normalises.hasNormalForm,
    normalises.isNormal, ground⟩

theorem Universe.Settles.exists_hasForm {sort : Universe} (settles : Universe.Settles state sort)
    (wellScoped : state.WellScoped) (ground : state.Ground) :
    ∃ normal, Universe.HasForm state sort normal := by
  obtain ⟨fuel, normal, normalised⟩ : ∃ fuel normal, normalise state fuel sort = .ok normal := by
    cases sort with
    | prop | sizeUniv | omega => exact ⟨2, _, rfl⟩
    | set bound =>
      obtain ⟨fuel, normal, normalised⟩ := exists_normalise_of_atoms (settles.atoms bound rfl)
      obtain ⟨fuel, normalised⟩ := exists_normalise_set normalised
      exact ⟨fuel, _, normalised⟩
    | sortPlaceholder => exact absurd settles.ground Phrase.not_ground_sortPlaceholder
  obtain ⟨depth, inScope⟩ := settles.ground
  exact ⟨normal, Universe.hasForm_of_normalise wellScoped
    (inScope.mono False.elim le_rfl) normalised (ground.normalise normalised settles.ground)⟩

/-- Only the level of a sort changes. -/
theorem Universe.HasForm.eq_or_set {sort normal : Universe}
    (form : Universe.HasForm state sort normal) (ground : sort.Ground) :
    normal = sort ∨ ∃ bound bound', sort = .set bound ∧ normal = .set bound' := by
  cases sort with
  | prop | sizeUniv | omega =>
    cases form.hasNormalForm
    exact .inl rfl
  | set bound =>
    obtain ⟨bound', rfl, _⟩ := form.hasNormalForm.set_cases
    exact .inr ⟨bound, bound', rfl, rfl⟩
  | sortPlaceholder => exact absurd ground Phrase.not_ground_sortPlaceholder

theorem Universe.HasForm.sizeUniv_iff {sort normal : Universe}
    (form : Universe.HasForm state sort normal) (ground : sort.Ground) :
    normal = .sizeUniv ↔ sort = .sizeUniv := by
  obtain rfl | ⟨_, _, rfl, rfl⟩ := form.eq_or_set ground
  · rfl
  · simp

/-- A sort that is not over a level is its own normal form. -/
theorem Universe.Settles.hasForm_self {sort : Universe} (settles : Universe.Settles state sort)
    (wellScoped : state.WellScoped) (ground : state.Ground) (notSet : ∀ bound, sort ≠ .set bound) :
    Universe.HasForm state sort sort := by
  obtain ⟨normal, form⟩ := settles.exists_hasForm wellScoped ground
  obtain rfl | ⟨bound, _, isSet, _⟩ := form.eq_or_set settles.ground
  · exact form
  · exact absurd isSet (notSet bound)

/-! ## Comparisons -/

namespace ConvM

section Levels

variable {left right leftNormal rightNormal : Level}

theorem judges_leqLevel (leftGround : leftNormal.Ground) (rightGround : rightNormal.Ground)
    (leftDone : normalise state fuel left = .ok leftNormal)
    (rightDone : normalise state fuel right = .ok rightNormal) :
    Judges (leqLevel fuel depth left right) state
      (∀ value, Level.eval value leftNormal ≤ Level.eval value rightNormal) := by
  refine .get_bind (.lift_bind leftDone (.lift_bind rightDone ?_))
  rw [Phrase.ground_iff.1 leftGround, Phrase.ground_iff.1 rightGround]
  split
  · exact .pure (Level.eval_le_of_below ‹_›)
  · exact .fail _ (mt Level.below_of_eval_le ‹_›)

end Levels

section Sorts

variable {left right leftNormal rightNormal : Universe}

/-- Sorts are found to be in order exactly when their normal forms are. -/
theorem eventually_judges_leqSort (depth : Nat) (leftForm : Universe.HasForm state left leftNormal)
    (rightForm : Universe.HasForm state right rightNormal) :
    ∀ᶠ fuel in atTop, Judges (leqSort fuel depth left right) state
      (Universe.AtMost leftNormal rightNormal) := by
  obtain ⟨_, leftNormalised⟩ := leftForm.normalised
  obtain ⟨_, rightNormalised⟩ := rightForm.normalised
  have levels : ∀ᶠ fuel in atTop, ∀ leftBound rightBound, leftNormal = .set leftBound →
      rightNormal = .set rightBound → Judges (leqLevel fuel depth leftBound rightBound) state
        (Universe.AtMost leftNormal rightNormal) := by
    refine eventually_of_injective (fun _ _ => Phrase.set.inj) ?_
    rintro leftBound rightBound rfl rfl
    filter_upwards [(show IsNormal state leftBound from leftForm.isNormal).eventually_normalise,
      (show IsNormal state rightBound from rightForm.isNormal).eventually_normalise]
      with fuel leftDone rightDone
    rw [Universe.AtMost.set_iff]
    exact judges_leqLevel leftForm.ground rightForm.ground leftDone rightDone
  filter_upwards [eventually_normalise leftNormalised, eventually_normalise rightNormalised, levels]
    with fuel leftDone rightDone levels
  refine .get_bind (.lift_bind leftDone (.lift_bind rightDone ?_))
  split
  · rename_i same
    exact .pure (same ▸ .refl _)
  · rename_i different
    split
    · exact absurd leftForm.ground Phrase.not_ground_sortPlaceholder
    · exact absurd rightForm.ground Phrase.not_ground_sortPlaceholder
    · exact .fail _ fun atMost => different (Universe.AtMost.of_sizeUniv_iff.1 atMost).symm
    · exact .fail _ fun atMost => different (Universe.AtMost.sizeUniv_iff.1 atMost)
    · exact .pure (.omega (by rintro rfl; contradiction))
    · exact .pure (.prop _)
    · exact levels _ _ rfl rfl
    · refine .fail _ fun atMost => ?_
      cases atMost <;> simp_all

end Sorts

/-- In a state whose functions have no placeholders in them, the comparison of sorts without
placeholders, whose atoms have normal forms, is reflexive and transitive, and goes both ways exactly
where the sorts are found equal.  Every sort but that of sizes lies below the sort above all sets,
and the sort of sizes is comparable with itself alone.  No comparison changes the state, and with
enough fuel it comes to an end. -/
theorem leqSort_partial_order
    {first second third : Universe}
    (wellScoped : state.WellScoped)
    (ground : state.Ground)
    (firstSettles : Universe.Settles state first)
    (secondSettles : Universe.Settles state second)
    (thirdSettles : Universe.Settles state third) :
    (∀ fuel, ((leqSort fuel depth first second).run state).state = state ∧
      ((equalSort fuel depth first second).run state).state = state) ∧
    ∀ᶠ fuel in atTop,
      let leq (left right : Universe) : Prop :=
        ((leqSort fuel depth left right).run state).result = .ok ()
      (∀ reason, ((leqSort fuel depth first second).run state).result ≠ .error (.halt reason)) ∧
      leq first first ∧
      (leq first second → leq second third → leq first third) ∧
      (leq first second ∧ leq second first ↔
        ((equalSort fuel depth first second).run state).result = .ok ()) ∧
      (leq first .omega ↔ first ≠ .sizeUniv) ∧
      (leq first .sizeUniv ↔ first = .sizeUniv) ∧
      (leq .sizeUniv first ↔ first = .sizeUniv) := by
  constructor
  · intro fuel
    exact ⟨(still_leqSort ground firstSettles.ground secondSettles.ground).state_eq,
      (still_equalSort ground firstSettles.ground secondSettles.ground).state_eq⟩
  obtain ⟨firstNormal, firstForm⟩ := firstSettles.exists_hasForm wellScoped ground
  obtain ⟨secondNormal, secondForm⟩ := secondSettles.exists_hasForm wellScoped ground
  obtain ⟨thirdNormal, thirdForm⟩ := thirdSettles.exists_hasForm wellScoped ground
  have sizeForm : Universe.HasForm state .sizeUniv .sizeUniv :=
    Universe.Settles.hasForm_self ⟨Phrase.ground_iff.2 rfl, by simp⟩ wellScoped ground (by simp)
  have omegaForm : Universe.HasForm state .omega .omega :=
    Universe.Settles.hasForm_self ⟨Phrase.ground_iff.2 rfl, by simp⟩ wellScoped ground (by simp)
  have judged : ∀ {left right leftNormal rightNormal : Universe},
      Universe.HasForm state left leftNormal → Universe.HasForm state right rightNormal →
      ∀ᶠ fuel in atTop, ((leqSort fuel depth left right).run state).result = .ok () ↔
        Universe.AtMost leftNormal rightNormal :=
    fun leftForm rightForm =>
      (eventually_judges_leqSort depth leftForm rightForm).mono fun _ judges => judges.succeeds_iff
  obtain ⟨_, firstDone⟩ := firstForm.normalised
  obtain ⟨_, secondDone⟩ := secondForm.normalised
  have equal := eventually_judges_equalSort depth firstForm.ground secondForm.ground firstDone
    secondDone
  filter_upwards [eventually_judges_leqSort depth firstForm secondForm, judged firstForm firstForm,
    judged firstForm secondForm, judged secondForm firstForm, judged secondForm thirdForm,
    judged firstForm thirdForm, equal,
    judged firstForm omegaForm, judged firstForm sizeForm, judged sizeForm firstForm]
    with fuel judges reflexive forth back upper both equal belowOmega belowSize aboveSize
  simp only [reflexive, forth, back, upper, both, equal.succeeds_iff, belowOmega, belowSize,
    aboveSize,
    Universe.AtMost.omega_iff, Universe.AtMost.sizeUniv_iff, Universe.AtMost.of_sizeUniv_iff,
    firstForm.sizeUniv_iff firstSettles.ground, Ne, iff_self, and_true]
  refine ⟨judges.concludes.result_ne, .refl _, .trans, ?_⟩
  constructor
  · exact fun atMost => Universe.AtMost.antisymm firstForm.isNormal secondForm.isNormal atMost.1
      atMost.2
  · rintro rfl
    exact ⟨.refl _, .refl _⟩

/-- The level above a point and the raised level of the point give sets that lie below each other,
and below the sets of the next level. -/
theorem leqSort_partial_order_above :
    let height : Term := .app (.const ⟨5⟩) (.const ⟨3⟩) {}
    let above : Term := .app (.const ⟨7⟩) (.const ⟨3⟩) {}
    let unfolded : Universe := .set (.lub 0 (.atom above 0 .noAtoms))
    let folded : Universe := .set (.lub 0 (.atom height 1 .noAtoms))
    let next : Universe := .set (.lub 0 (.atom height 2 .noAtoms))
    doubled.state.placeholders = [] ∧
    ∀ᶠ fuel in atTop,
      let leq (left right : Universe) : Prop :=
        ((leqSort fuel 0 left right).run doubled.state).result = .ok ()
      leq unfolded unfolded ∧ leq unfolded .omega ∧ ¬leq unfolded .sizeUniv ∧
        ¬leq .sizeUniv unfolded ∧
        (leq unfolded folded → leq folded next → leq unfolded next) ∧
        (leq unfolded folded ∧ leq folded unfolded ↔
          ((equalSort fuel 0 unfolded folded).run doubled.state).result = .ok ()) := by
  intro height above unfolded folded next
  have reachable : Reachable doubled := .ends (.initial {} .patterns 40) (.check doubling) rfl
  have noPlaceholders : doubled.state.placeholders = [] := by decide +kernel
  have wellScoped := reachable.wellScoped.state
  have settles : ∀ {term : Term} {offset : Nat} {normal : Level}, term.hasPlaceholder = false →
      normalise doubled.state 40 (Level.ofParts 0 [⟨term, offset⟩]) = .ok normal →
      Universe.Settles doubled.state (.set (.lub 0 (.atom term offset .noAtoms))) := by
    intro term offset normal isGround normalised
    refine ⟨Phrase.ground_iff.2 ?_, ?_⟩
    · simpa [Phrase.hasPlaceholder, Phrase.anyPlaceholder] using isGround
    · rintro _ ⟨⟩ atom present
      obtain rfl := List.mem_singleton.1 present
      exact ⟨40, normal, normalised⟩
  have unfoldedSettles : Universe.Settles doubled.state unfolded := by
    exact @settles above 0 (.lub 0 (.atom height 1 .noAtoms)) rfl (by decide +kernel)
  have foldedSettles : Universe.Settles doubled.state folded := by
    exact @settles height 1 (.lub 0 (.atom height 1 .noAtoms)) rfl (by decide +kernel)
  have nextSettles : Universe.Settles doubled.state next := by
    exact @settles height 2 (.lub 0 (.atom height 2 .noAtoms)) rfl (by decide +kernel)
  obtain ⟨_, ordered⟩ := @leqSort_partial_order _ 0 _ _ _ wellScoped
    (wellScoped.ground noPlaceholders) unfoldedSettles foldedSettles nextSettles
  refine ⟨noPlaceholders, ordered.mono fun fuel ordered => ?_⟩
  obtain ⟨_, reflexive, transitive, both, belowOmega, belowSize, aboveSize⟩ := ordered
  have notSize : unfolded ≠ .sizeUniv := by simp [unfolded]
  exact ⟨reflexive, belowOmega.2 notSize, mt belowSize.1 notSize, mt aboveSize.1 notSize,
    transitive, both⟩

end ConvM

end Families
