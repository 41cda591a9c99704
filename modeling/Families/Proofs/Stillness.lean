import Families.Proofs.Ground

/-!
# Comparisons that change nothing

Where no placeholder occurs, in the phrases that are compared and in the bodies of functions, a
comparison leaves the state as it was, whether it succeeds or fails.
-/

namespace Families

/-- Only the given state is passed and left. -/
def stillness (state : State) : Discipline State where
  Good later := later = state
  Passes _ _ := True
  Follows _ _ := True
  Allows _ := True
  refl _ := trivial
  trans _ _ := trivial
  passes _ _ := trivial

/-- The computation passes and leaves no state but the one that it starts from. -/
abbrev Still {ε α : Type} (computation : Attempt ε State α) (state : State) : Prop :=
  Respects (stillness state) computation state fun _ _ => True

theorem Still.state_eq {ε α : Type} {computation : Attempt ε State α} {state : State}
    (still : Still computation state) : (computation.run state).state = state :=
  still.good

namespace ConvM

variable {state : State} {fuel depth : Nat}

/-- Where there is no placeholder, nothing is postponed and nothing is solved. -/
theorem obeys_stillness :
    (Scene.usage (· = state) fun _ _ => False).Obeys (stillness state) where
  good := id
  postpone := by
    rintro _ _ _ ⟨_, _, ground, hasPlaceholder⟩
    exact absurd hasPlaceholder (by simp [Phrase.ground_iff.1 ground])
  solveTerm _ _ ground := absurd ground Phrase.not_ground_placeholder
  solveSort _ _ ground := absurd ground Phrase.not_ground_sortPlaceholder

section Ground

variable (ground : state.Ground)
include ground

theorem lawful_stillness : (Scene.usage (· = state) fun _ _ => False).Lawful :=
  Scene.lawful_usage fun {_} same => same ▸ ground.supplies

theorem still_equalSort {left right : Universe} (leftGround : left.Ground)
    (rightGround : right.Ground) : Still (equalSort fuel depth left right) state :=
  (compares_equalSort (lawful_stillness ground) trivial rfl leftGround rightGround).respects
    obeys_stillness rfl

theorem still_leqSort {left right : Universe} (leftGround : left.Ground)
    (rightGround : right.Ground) : Still (leqSort fuel depth left right) state :=
  (compares_leqSort (lawful_stillness ground) rfl leftGround rightGround).respects
    obeys_stillness rfl

/-- A comparison without placeholders leaves the state as it was, whatever its outcome. -/
theorem still_equalTerm {left right : Term} (leftGround : left.Ground)
    (rightGround : right.Ground) : Still (equalTerm fuel depth left right) state :=
  (compares_equalTerm (lawful_stillness ground) trivial rfl leftGround rightGround).respects
    obeys_stillness rfl

end Ground

/-- A comparison without placeholders leaves the state as it was. -/
theorem eq_of_equalTerm {before after : State} {answer : Unit} {left right : Term}
    (ground : before.Ground) (leftGround : left.Ground) (rightGround : right.Ground)
    (yields : Yields (equalTerm fuel depth left right) before answer after) : before = after :=
  (still_equalTerm ground leftGround rightGround).state_eq.symm.trans yields.2

end ConvM
end Families
