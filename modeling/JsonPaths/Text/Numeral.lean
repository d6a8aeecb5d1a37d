/-
JsonPaths/Text/Numeral.lean

Whole numbers written in decimal, and the limit on their length.

Numbers are unbounded, but one with more than 4300 digits is neither read from a
text, leading zeros counted, nor written to one.  Everything that writes or shows
values writes their whole numbers by `intText?`, and fails where it does.
-/

namespace JsonPaths.Text

/-- The greatest number of digits that a whole number may be written with. -/
def digitLimit : Nat := 4300

/-- What is said of a text that writes a number with more digits than allowed. -/
def tooManyDigits (count : Nat) : String :=
  s!"Exceeds the limit ({digitLimit} digits) for integer string conversion: " ++
  s!"value has {count} digits; use sys.set_int_max_str_digits() to increase the limit"

/-- What is said of a number that would take more digits than allowed. -/
def tooLong : String :=
  s!"Exceeds the limit ({digitLimit} digits) for integer string conversion; " ++
  "use sys.set_int_max_str_digits() to increase the limit"

/-- Digits with zeros in front up to `width`. -/
def zeroPadded (width : Nat) (ds : List Char) : List Char :=
  List.replicate (width - ds.length) '0' ++ ds

/-- The digits of a whole number, however many, with its sign. -/
def intChars (n : Int) : List Char :=
  (if n < 0 then ['-'] else []) ++ Nat.toDigits 10 n.natAbs

/-- The text of a whole number, if it has not too many digits. -/
def intText? (n : Int) : Option (List Char) :=
  if digitLimit < (Nat.toDigits 10 n.natAbs).length then none else some (intChars n)

/-- The whole number that digits write, with its sign. -/
def signed (negative : Bool) (ds : List Char) : Int :=
  let n : Int := Nat.ofDigitChars 10 ds 0
  if negative then -n else n

end JsonPaths.Text
