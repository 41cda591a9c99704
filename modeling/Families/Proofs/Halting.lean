import Families.Proofs.Inert

/-!
# Halting phrases

A phrase halts when its reduction ends and the parts of what it ends with halt.  Then normalisation
ends on it too.  Every way to build a phrase from halting parts gives a halting phrase, except for
placeholders with solutions and functions with bodies, whose unfoldings have to halt.
-/

namespace Families

open Filter

variable {category : Category} {phrase : Phrase category}

/-! ## Computations that end -/

/-- With enough fuel the computation ends, and still more fuel does not change how. -/
def Terminates {α : Type} (computation : Nat → Except Halt α) : Prop :=
  ∃ outcome, outcome ≠ .error .exhausted ∧
    ∀ᶠ fuel in atTop, computation fuel = outcome

namespace Terminates

variable {α β : Type} {computation : Nat → Except Halt α}

theorem constant {outcome : Except Halt α} (ends : outcome ≠ .error .exhausted) :
    Terminates fun _ => outcome :=
  ⟨outcome, ends, .of_forall fun _ => rfl⟩

theorem pure (value : α) : Terminates fun _ => (Pure.pure value : Except Halt α) :=
  constant (by simp [Pure.pure, Except.pure])

theorem checked (value? : Option α) : Terminates fun _ => Families.checked value? :=
  constant fun failed => by simpa using checked_eq_error failed

theorem exists_ne_exhausted (terminates : Terminates computation) :
    ∃ fuel, computation fuel ≠ .error .exhausted := by
  obtain ⟨outcome, ends, reached⟩ := terminates
  obtain ⟨enough, reached⟩ := reached.exists
  exact ⟨enough, fun exhausted => ends (reached.symm.trans exhausted)⟩

/-- What happens without fuel does not matter. -/
theorem of_succ (terminates : Terminates fun fuel => computation (fuel + 1)) :
    Terminates computation := by
  obtain ⟨outcome, ends, reached⟩ := terminates
  exact ⟨outcome, ends, eventually_of_succ reached⟩

theorem succ (terminates : Terminates computation) :
    Terminates fun fuel => computation (fuel + 1) := by
  obtain ⟨outcome, ends, reached⟩ := terminates
  exact ⟨outcome, ends, (tendsto_add_atTop_nat 1).eventually reached⟩

/-- Two computations in a row. -/
theorem bind {next : Nat → α → Except Halt β} (first : Terminates computation)
    (second : ∀ fuel value, computation fuel = .ok value → Terminates fun fuel => next fuel value) :
    Terminates fun fuel => computation fuel >>= next fuel := by
  obtain ⟨outcome, ends, reached⟩ := first
  cases outcome with
  | error reason =>
    refine ⟨.error reason, by simpa using ends, ?_⟩
    filter_upwards [reached] with fuel reached
    rw [reached]
    rfl
  | ok value =>
    obtain ⟨fuel, isValue⟩ := reached.exists
    obtain ⟨last, lastEnds, continued⟩ := second fuel value isValue
    refine ⟨last, lastEnds, ?_⟩
    filter_upwards [reached, continued] with fuel reached continued
    rw [reached]
    exact continued

theorem foldlM {step : Nat → β → α → Except Halt β} {list : List α}
    (each : ∀ element ∈ list, ∀ value, Terminates fun fuel => step fuel value element) (start : β) :
    Terminates fun fuel => list.foldlM (step fuel) start := by
  induction list generalizing start with
  | nil => exact pure start
  | cons first rest ih =>
    rw [List.forall_mem_cons] at each
    simp only [List.foldlM_cons]
    exact (each.1 start).bind fun _ value _ => ih each.2 value

end Terminates

/-! ## Halting -/

namespace Phrase

/-- The immediate parts of a phrase, with their categories. -/
def parts : {category : Category} → Phrase category → List (Sigma Phrase)
  | _, app function argument _ => [⟨_, function⟩, ⟨_, argument⟩]
  | _, pi _ _ domain codomain => [⟨_, domain⟩, ⟨_, codomain⟩]
  | _, univ sort => [⟨_, sort⟩]
  | _, level bound => [⟨_, bound⟩]
  | _, placeholder _ arguments => [⟨_, arguments⟩]
  | _, classified sort term => [⟨_, sort⟩, ⟨_, term⟩]
  | _, set bound => [⟨_, bound⟩]
  | _, sortPlaceholder _ arguments => [⟨_, arguments⟩]
  | _, lub _ atoms => [⟨_, atoms⟩]
  | _, atom term _ rest => [⟨_, term⟩, ⟨_, rest⟩]
  | _, terms first rest => [⟨_, first⟩, ⟨_, rest⟩]
  | _, _ => []

end Phrase

/-- Reduction of the phrase ends, and the parts of what it ends with halt. -/
inductive Halts (state : State) : {category : Category} → Phrase category → Prop where
  | intro {category : Category} {phrase : Phrase category} :
      Terminates (fun fuel => reduce state fuel phrase) →
      (∀ {fuel result}, reduce state fuel phrase = .ok result →
        ∀ part ∈ result.parts, Halts state part.2) →
      Halts state phrase

/-- Rebuilding ends if normalisation ends on the parts. -/
theorem terminates_rebuild {state : State}
    (parts : ∀ part ∈ phrase.parts, Terminates fun fuel => normalise state fuel part.2) :
    Terminates fun fuel => rebuild (fun part => normalise state fuel part) phrase := by
  cases phrase with
  | app | pi | classified | atom | terms =>
    simp only [Phrase.parts, List.forall_mem_cons] at parts
    exact parts.1.bind fun _ left _ => parts.2.1.bind fun _ right _ => .pure _
  | univ | level | placeholder | set | sortPlaceholder | lub =>
    simp only [Phrase.parts, List.forall_mem_cons] at parts
    exact parts.1.bind fun _ part _ => .pure _
  | var | const | prop | sizeUniv | omega | noAtoms | noTerms => exact .pure _

namespace Halts

variable {state : State} {category : Category}

theorem reduce (halts : Halts state phrase) : Terminates fun fuel => reduce state fuel phrase := by
  cases halts with
  | intro ends _ => exact ends

/-- Normalisation ends on halting phrases. -/
theorem normalise (halts : Halts state phrase) :
    Terminates fun fuel => normalise state fuel phrase := by
  induction halts with
  | intro ends _ ih =>
    exact .of_succ (ends.bind fun _ _ reduced => terminates_rebuild (ih reduced))

/-- What reduction of a halting phrase returns halts. -/
theorem reduct {phrase result : Phrase category} {fuel : Nat} (halts : Halts state phrase)
    (reduced : Families.reduce state fuel phrase = .ok result) : Halts state result := by
  have inert := inert_of_reduce reduced
  refine .intro ⟨.ok result, by simp, inert.eventually_reduce⟩ fun {fuel result'} again => ?_
  rw [inert.reduce_eq again]
  cases halts with
  | intro _ parts => exact parts reduced

/-- The parts of a halting phrase that is inert halt. -/
theorem parts (halts : Halts state phrase) (inert : Inert state phrase) :
    ∀ part ∈ phrase.parts, Halts state part.2 := by
  obtain ⟨fuel, reached⟩ := inert.eventually_reduce.exists
  cases halts with
  | intro _ parts => exact parts reached

/-! ## Building halting phrases -/

/-- A phrase at which reduction stops at once halts with its parts. -/
theorem of_stops (stops : Stops state phrase) (parts : ∀ part ∈ phrase.parts, Halts state part.2) :
    Halts state phrase := by
  have ends : Terminates fun fuel => Families.reduce state (fuel + 1) phrase :=
    ⟨.ok phrase, by simp, .of_forall fun fuel => reduce_of_stops stops fuel⟩
  refine .intro (.of_succ ends) fun {fuel result} reduced => ?_
  rw [(Inert.stops stops).reduce_eq reduced]
  exact parts

theorem of_no_parts (stops : Stops state phrase) (none : phrase.parts = []) : Halts state phrase :=
  of_stops stops (by simp [none])

theorem of_two_parts {left right : Sigma Phrase} (stops : Stops state phrase)
    (both : phrase.parts = [left, right]) (leftHalts : Halts state left.2)
    (rightHalts : Halts state right.2) : Halts state phrase :=
  of_stops stops (by simp [both, leftHalts, rightHalts])

theorem iff_parts (stops : Stops state phrase) :
    Halts state phrase ↔ ∀ part ∈ phrase.parts, Halts state part.2 :=
  ⟨fun halts => halts.parts (.stops stops), of_stops stops⟩

/-- A phrase whose reduction is that of its only part halts with this part. -/
theorem of_part {inner : Category} {wrap : Phrase inner → Phrase category} {part : Phrase inner}
    (reduces : ∀ fuel, Families.reduce state (fuel + 1) (wrap part) =
      Families.reduce state fuel part >>= fun result => pure (wrap result))
    (onlyPart : ∀ result, (wrap result).parts = [⟨inner, result⟩]) (halts : Halts state part) :
    Halts state (wrap part) := by
  have ends : Terminates fun fuel => Families.reduce state (fuel + 1) (wrap part) := by
    simp only [reduces]
    exact halts.reduce.bind fun _ _ _ => .pure _
  refine .intro (.of_succ ends) fun {fuel result} reduced => ?_
  cases fuel with
  | zero => simp [Families.reduce] at reduced
  | succ fuel =>
    simp only [reduces, bind_eq_ok_iff, pure_eq_ok_iff] at reduced
    obtain ⟨part', partReduced, rfl⟩ := reduced
    rw [onlyPart]
    exact List.forall_mem_singleton.2 (halts.reduct partReduced)

theorem univ {sort : Universe} (halts : Halts state sort) : Halts state (.univ sort) :=
  halts.of_part (fun _ => rfl) fun _ => rfl

theorem level {bound : Level} (halts : Halts state bound) : Halts state (.level bound) :=
  halts.of_part (fun _ => rfl) fun _ => rfl

theorem set {bound : Level} (halts : Halts state bound) : Halts state (.set bound) :=
  halts.of_part (fun _ => rfl) fun _ => rfl

/-- A sequence halts exactly when its terms do. -/
theorem iff_toList :
    ∀ sequence : Phrase .terms, Halts state sequence ↔ ∀ term ∈ sequence.toList, Halts state term
  | .noTerms => by
    refine (iff_parts (by trivial)).trans ?_
    simp [Phrase.parts]
  | .terms first rest => by
    refine (iff_parts (by trivial)).trans ?_
    simp [Phrase.parts, iff_toList rest]

/-- Atoms halt exactly when their terms do. -/
theorem iff_atomList :
    ∀ atoms : Phrase .atoms, Halts state atoms ↔ ∀ atom ∈ atoms.atomList, Halts state atom.term
  | .noAtoms => by
    refine (iff_parts (by trivial)).trans ?_
    simp [Phrase.parts]
  | .atom term offset rest => by
    refine (iff_parts (by trivial)).trans ?_
    simp [Phrase.parts, iff_atomList rest]

/-- The leaves of what reduction of a halting term returns halt. -/
theorem leaf {term result leaf : Term} {fuel : Nat} (halts : Halts state term)
    (reduced : Families.reduce state fuel term = .ok result) (present : leaf ∈ result.leaves) :
    Halts state leaf := by
  have inert := inert_of_reduce reduced
  have resultHalts := halts.reduct reduced
  by_cases isLevel : result.IsLevel
  · cases result with
    | level bound =>
      have boundHalts := resultHalts.parts inert ⟨_, bound⟩ (by simp [Phrase.parts])
      have leafOfBound := inert.of_level.flat.mem_leaves.1 present
      cases bound with
      | lub constant atoms =>
        have atomsHalt := boundHalts.parts inert.of_level ⟨_, atoms⟩ (by simp [Phrase.parts])
        obtain ⟨atom, atomPresent, rfl⟩ := List.mem_map.1 leafOfBound
        exact (iff_atomList atoms).1 atomsHalt atom atomPresent
    | _ => exact isLevel.elim
  · rw [Phrase.leaves_of_not_isLevel isLevel, List.mem_singleton] at present
    exact present ▸ resultHalts

theorem lub {constant : Nat} {atoms : Phrase .atoms}
    (halts : ∀ atom ∈ atoms.atomList, Halts state atom.term) :
    Halts state (.lub constant atoms) := by
  have ends : Terminates fun fuel => Families.reduce state (fuel + 1) (.lub constant atoms) := by
    simp only [Families.reduce]
    refine .foldlM (fun atom present joined => ?_) _
    refine (halts atom present).reduce.bind fun _ term _ => ?_
    have ends : Terminates fun _ => reducedAtom term atom.offset := by
      unfold reducedAtom
      split
      · exact .checked _
      · exact .pure _
    exact ends.bind fun _ _ _ => .pure _
  refine .intro (.of_succ ends) fun {fuel result} reduced => ?_
  cases fuel with
  | zero => simp [Families.reduce] at reduced
  | succ fuel =>
    obtain ⟨heads, flattens⟩ := flattens_of_reduce reduced
    have termsHalt : ∀ term ∈ Level.terms result, Halts state term := by
      intro term present
      obtain ⟨source, sourcePresent, isLeaf⟩ := flattens.exists_leaf present
      exact (halts source sourcePresent).leaf (heads source sourcePresent) isLeaf
    cases result with
    | lub constant' atoms' =>
      refine List.forall_mem_singleton.2 ((iff_atomList atoms').2 fun atom present => ?_)
      exact termsHalt atom.term (List.mem_map_of_mem present)

end Halts

end Families
