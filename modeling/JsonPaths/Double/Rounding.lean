/-
JsonPaths/Double/Rounding.lean

The double nearest to an exact number.

`Double.nearest` rounds a fraction of whole numbers, a tie going to the even
significand; `Double.ofDecimal` does so for `digits * 10 ^ exponent`, however
large the exponent is.  All arithmetic is exact.
-/
import JsonPaths.Double.Basic

namespace JsonPaths.Double

/-! ### Rounding a fraction -/

/-- The whole number nearest to `n / d`, a half going to the even neighbour. -/
def roundHalfEven (n d : Nat) : Nat :=
  let k := n / d
  let r := n % d
  if 2 * r < d then k else if d < 2 * r then k + 1 else k + k % 2

/-- The greatest `e` with `2 ^ e ≤ n / d`, for positive `n` and `d`. -/
def binaryExponent (n d : Nat) : Int :=
  let e : Int := (n.log2 : Int) - d.log2
  let fits : Bool := match e with
    | .ofNat k => d * Nat.pow 2 k ≤ n
    | .negSucc k => d ≤ n * Nat.pow 2 (k + 1)
  if fits then e else e - 1

/-- The double nearest to `n / d`, for a positive `d`. -/
def nearest (negative : Bool) (n d : Nat) : Double :=
  if n = 0 then zero negative
  else
    let q := max (binaryExponent n d - 52) (-1074)
    let m := match q with
      | .ofNat k => roundHalfEven n (d * Nat.pow 2 k)
      | .negSucc k => roundHalfEven (n * Nat.pow 2 (k + 1)) d
    ofOrdinal negative ((q + 1074).toNat * Nat.pow 2 52 + m)

/-! ### Rounding a decimal number -/

/-- The double nearest to `digits * 10 ^ exponent`.  A number of at least
`10 ^ 310` is past every finite double, and one below `10 ^ (-330)` is nearer
to zero than to any other, so neither power is ever computed for those. -/
def ofDecimal (negative : Bool) (digits : Nat) (exponent : Int) : Double :=
  let size : Int := (Nat.toDigits 10 digits).length + exponent
  if digits = 0 then zero negative
  else if 310 < size then .infinite negative
  else if size < -330 then zero negative
  else match exponent with
    | .ofNat k => nearest negative (digits * Nat.pow 10 k) 1
    | .negSucc k => nearest negative digits (Nat.pow 10 (k + 1))

end JsonPaths.Double
