/-! # Sets of characters

A set of characters is given by inclusive ranges of code points, in increasing order.

## Main Definitions

* `CharSet`: the ranges;
* `CharSet.has`: membership of a character.
-/

namespace SharpScript.Text

/-- A set of characters, as inclusive ranges of code points. -/
structure CharSet where
  ranges : List (Nat × Nat)

/-- Whether the code point of `c` lies in one of the ranges. -/
def CharSet.has (s : CharSet) (c : Char) : Bool :=
  s.ranges.any fun r => r.1 ≤ c.toNat && c.toNat ≤ r.2

theorem CharSet.has_iff (s : CharSet) (c : Char) :
    s.has c = true ↔ ∃ r ∈ s.ranges, r.1 ≤ c.toNat ∧ c.toNat ≤ r.2 := by
  simp [CharSet.has]

end SharpScript.Text
