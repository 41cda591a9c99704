/-!
# Bounded numbers

Variables, placeholders and universe levels are numbered by 32-bit words.  Sums are taken over
the natural numbers and refused once they leave that range.
-/

namespace Families

/-- The smallest number that is no word. -/
def wordLimit : Nat := 0x100000000

/-- The number itself when it is a word. -/
def word? (number : Nat) : Option Nat :=
  if number < wordLimit then some number else none

/-- Only words are accepted, and they are returned unchanged. -/
@[simp]
theorem word?_eq_some_iff {number result : Nat} :
    word? number = some result ↔ number < wordLimit ∧ number = result := by
  simp [word?]

end Families
