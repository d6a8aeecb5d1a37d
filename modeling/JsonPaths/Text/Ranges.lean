/-
JsonPaths/Text/Ranges.lean

Sets of code points as ordered lists of intervals.
-/

namespace JsonPaths.Text

/-- Intervals of code points, both ends included, in increasing order. -/
abbrev Ranges := List (Nat × Nat)

/-- Whether a code point lies in one of the intervals.  The first interval that
does not end before it decides, since the intervals are in order. -/
def Ranges.contains (r : Ranges) (n : Nat) : Bool :=
  match r.find? (n ≤ ·.2) with
  | some p => p.1 ≤ n
  | none => false

end JsonPaths.Text
