/-
JsonPaths/Text/Integer.lean

Whole numbers as people write them.

A number may have blanks around it, a sign, decimal digits of any script, and
single underscores between digits.  It has at most 4300 digits.
-/
import JsonPaths.Text.Blank
import JsonPaths.Text.DecimalDigit
import JsonPaths.Text.Numeral

namespace JsonPaths.Text

/-- The blanks that may stand around a number: the four information separators
are not among them. -/
def isNumberBlank (c : Char) : Bool := isBlank c && !(0x1c ≤ c.toNat && c.toNat ≤ 0x1f)

/-- The values of digits, single underscores between them left out. -/
def digitValues? : List Char → Option (List Nat)
  | [] => none
  | [c] => (digitValue? c).map ([·])
  | c :: '_' :: r => do
    let d ← digitValue? c
    return d :: (← digitValues? r)
  | c :: r => do
    let d ← digitValue? c
    return d :: (← digitValues? r)

/-- The whole number that a text writes. -/
def readInteger? (s : List Char) : Option Int :=
  let s := s.dropWhile isNumberBlank
  let s := (s.reverse.dropWhile isNumberBlank).reverse
  let (negative, s) := match s with
    | '-' :: r => (true, r)
    | '+' :: r => (false, r)
    | _ => (false, s)
  match digitValues? s with
  | none => none
  | some ds =>
    if digitLimit < ds.length then none
    else
      let n : Nat := ds.foldl (fun n d => n * 10 + d) 0
      some (if negative then -(n : Int) else n)

end JsonPaths.Text
