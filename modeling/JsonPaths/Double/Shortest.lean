/-
JsonPaths/Double/Shortest.lean

The text of a double: the fewest decimal digits that read back.

`Double.shortest` tries one digit, then two, and so on, each time testing the
two neighbours of the exact value on that decimal grid by rounding them.  Of
two that read back the nearer is taken, on a tie the even one.  `Double.text`
lays the digits out, positionally while the decimal exponent lies between -4
and 15.
-/
import JsonPaths.Double.Rounding
import JsonPaths.Text.Numeral

namespace JsonPaths

/-- The number `digits * 10 ^ exponent`. -/
structure Decimal where
  digits : Nat
  exponent : Int
  deriving DecidableEq, Repr, Inhabited

namespace Double

/-! ### The fewest digits -/

/-- The greatest `p` with `10 ^ p ≤ n / d`, for positive `n` and `d` whose quotient
is no negative power of ten. -/
def decimalExponent (n d : Nat) : Int :=
  if d ≤ n then ((Nat.toDigits 10 (n / d)).length : Int) - 1
  else -((Nat.toDigits 10 (d / n)).length : Int)

/-- The fraction `n / d` counted in units of `10 ^ k`. -/
def inUnits (n d : Nat) : (k : Int) → Nat × Nat
  | .ofNat j => (n, d * Nat.pow 10 j)
  | .negSucc j => (n * Nat.pow 10 (j + 1), d)

/-- The neighbour of the magnitude on the grid of multiples of `10 ^ k` that
reads back; if both do, the nearer one, and the even one if both are as near. -/
def onGrid? (exponent : Fin 2047) (fraction : Fin (Nat.pow 2 52)) (k : Int) : Option Decimal :=
  let (n, d) := magnitude exponent fraction
  let (n, d) := inUnits n d k
  let low := n / d
  let readsBack (c : Nat) : Bool := ofDecimal false c k = .finite false exponent fraction
  match readsBack low, readsBack (low + 1) with
  | true, true => some ⟨roundHalfEven n d, k⟩
  | true, false => some ⟨low, k⟩
  | false, true => some ⟨low + 1, k⟩
  | false, false => none

/-- The magnitude in decimal without any rounding. -/
def exactDecimal (exponent : Fin 2047) (fraction : Fin (Nat.pow 2 52)) : Decimal :=
  let m := significand exponent fraction
  match scale exponent with
  | .ofNat q => ⟨m * Nat.pow 2 q, 0⟩
  | .negSucc q => ⟨m * Nat.pow 5 (q + 1), .negSucc q⟩

/-- The shortest decimal that reads back as the magnitude, for one that is not
zero.  Seventeen digits are always enough; the exact decimal stands for the
case that cannot arise. -/
def shortest (exponent : Fin 2047) (fraction : Fin (Nat.pow 2 52)) : Decimal :=
  let (n, d) := magnitude exponent fraction
  let p := decimalExponent n d
  let found := (List.range 17).findSome? fun (i : Nat) => onGrid? exponent fraction (p - i)
  found.getD (exactDecimal exponent fraction)

/-! ### Layout -/

/-- The spellings of the values that have no digits. -/
structure SpecialNames where
  nan : String
  infinity : String

/-- The digits of `c` without the zeros at their end. -/
def significantDigits (c : Nat) : List Char :=
  ((Nat.toDigits 10 c).reverse.dropWhile (· = '0')).reverse

/-- Digits with their decimal point after `point` places, always with a
fraction part. -/
def positional (ds : List Char) (point : Int) : List Char :=
  match point with
  | .negSucc k => '0' :: '.' :: (List.replicate (k + 1) '0' ++ ds)
  | .ofNat 0 => '0' :: '.' :: ds
  | .ofNat k =>
    if ds.length ≤ k then ds ++ List.replicate (k - ds.length) '0' ++ ['.', '0']
    else ds.take k ++ '.' :: ds.drop k

/-- One digit before the point and a signed exponent of at least two digits. -/
def scientific (ds : List Char) (exponent : Int) : List Char :=
  let mantissa := match ds with
    | [] => ['0']
    | [d] => [d]
    | d :: r => d :: '.' :: r
  mantissa ++ 'e' :: (if exponent < 0 then '-' else '+') ::
    Text.zeroPadded 2 (Nat.toDigits 10 exponent.natAbs)

/-- The text of a magnitude. -/
def magnitudeText (exponent : Fin 2047) (fraction : Fin (Nat.pow 2 52)) : List Char :=
  if ordinal exponent fraction = 0 then ['0', '.', '0']
  else
    let c := shortest exponent fraction
    let point : Int := (Nat.toDigits 10 c.digits).length + c.exponent
    let ds := significantDigits c.digits
    if -4 ≤ point - 1 ∧ point - 1 ≤ 15 then positional ds point
    else scientific ds (point - 1)

/-- The text of a double. -/
def text (names : SpecialNames) : Double → List Char
  | .nan => names.nan.toList
  | .infinite negative => (if negative then ['-'] else []) ++ names.infinity.toList
  | .finite negative e f => (if negative then ['-'] else []) ++ magnitudeText e f

end Double

end JsonPaths
