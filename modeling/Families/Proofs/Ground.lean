import Families.Proofs.Registration

/-!
# Ground phrases

Where no placeholder occurs, in a phrase and in the bodies of functions, reduction brings in none,
so that there is nothing to solve and no reason to postpone.
-/

namespace Families

variable {category : Category} {phrase : Phrase category} {state : State}
variable {arguments : Phrase .terms}

namespace Phrase

variable {category : Category}

/-- No placeholder occurs in the phrase. -/
abbrev Ground (phrase : Phrase category) : Prop :=
  phrase.Uses fun _ _ => False

/-- A phrase in a scope is one in the scope without placeholders exactly when it has none. -/
theorem Scoped.ground_iff {fits : Category → Nat → Nat → Prop} {depth : Nat}
    (inScope : phrase.Scoped fits depth) :
    phrase.Scoped (fun _ _ _ => False) depth ↔ phrase.hasPlaceholder = false := by
  unfold hasPlaceholder
  induction phrase generalizing depth with
  | _ => simp_all [Scoped, anyPlaceholder]

theorem ground_iff : phrase.Ground ↔ phrase.hasPlaceholder = false := by
  constructor
  · rintro ⟨depth, inScope⟩
    exact inScope.ground_iff.1 inScope
  · intro absent
    obtain ⟨depth, inScope⟩ := uses_of_forall (fun _ _ => trivial) phrase
    exact ⟨depth, inScope.ground_iff.2 absent⟩

theorem not_ground_placeholder {id : Nat} : ¬(Phrase.placeholder id arguments).Ground := by
  rintro ⟨_, impossible, _⟩
  exact impossible

theorem not_ground_sortPlaceholder {id : Nat} : ¬(Phrase.sortPlaceholder id arguments).Ground := by
  rintro ⟨_, impossible, _⟩
  exact impossible

theorem Ground.isPlaceholder {term : Term} (ground : term.Ground) :
    ConvM.isPlaceholder term = false := by
  cases term with
  | placeholder => exact absurd ground not_ground_placeholder
  | _ => rfl

theorem Ground.asPlaceholder? {bound : Level} (ground : bound.Ground) :
    Level.asPlaceholder? bound = none := by
  obtain ⟨depth, inScope⟩ := ground
  refine Option.eq_none_iff_forall_ne_some.2 ?_
  rintro ⟨id, arguments⟩ isPlaceholder
  have member := Level.mem_terms_of_asPlaceholder? isPlaceholder
  exact not_ground_placeholder ⟨depth, Level.scoped_iff.1 inScope _ member⟩

theorem Ground.ofTerm {term : Term} (ground : term.Ground) : (Level.ofTerm term).Ground := by
  obtain ⟨depth, inScope⟩ := ground
  exact ⟨depth, Level.scoped_ofTerm inScope⟩

end Phrase

/-- No placeholder occurs in the body of a function. -/
def Kind.isGround : Kind → Bool
  | .function _ (some body) => !body.hasPlaceholder
  | _ => true

namespace State

/-- No placeholder occurs in the bodies of functions. -/
def Ground (state : State) : Prop :=
  ∀ entry ∈ state.signature.values, entry.definition.kind.isGround = true

instance (state : State) : Decidable state.Ground :=
  inferInstanceAs (Decidable (∀ entry ∈ state.signature.values, _))

theorem Ground.body? {path : Path} {arity : Nat} {body : Term} (ground : state.Ground)
    (found : state.signature.body? path = some (arity, body)) : body.Ground := by
  simp only [Signature.body?, Signature.definition?] at found
  split at found
  · rename_i isFunction
    obtain ⟨rfl, rfl⟩ := Prod.mk.inj (Option.some.inj found)
    obtain ⟨entry, declared, sameDefinition⟩ := Option.map_eq_some_iff.1 isFunction
    have isGround := ground entry (PathMap.mem_values_of_get? declared)
    rw [sameDefinition] at isGround
    exact Phrase.ground_iff.2 (by simpa [Kind.isGround] using isGround)
  · simp at found

/-- There is nothing to unfold into a placeholder. -/
theorem Ground.supplies (ground : state.Ground) :
    state.Supplies fun _ _ => False where
  solutions _ impossible := impossible.elim
  bodies found := ground.body? found

/-- Normalisation brings in no placeholder. -/
theorem Ground.normalise {fuel : Nat} {result : Phrase category} (ground : state.Ground)
    (normalised : Families.normalise state fuel phrase = .ok result)
    (phraseGround : phrase.Ground) : result.Ground :=
  (ground.supplies.normalise normalised phraseGround).mono And.left

end State

end Families
