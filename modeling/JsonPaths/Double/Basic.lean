/-
JsonPaths/Double/Basic.lean

Binary floating-point numbers of 64 bits, by their fields.

A finite double is a sign, a biased exponent below 2047 and a fraction of 52
bits; all NaN are one.  The magnitude `significand * 2 ^ scale` is exact, and
`ordinal` numbers the magnitudes in increasing order, so that rounding up past
the last fraction of one exponent enters the next (`ofOrdinal`).
-/

namespace JsonPaths

/-- A double.  Every field value is allowed, so equal numbers other than the
two zeros have equal fields. -/
inductive Double where
  | nan
  | infinite (negative : Bool)
  | finite (negative : Bool) (exponent : Fin 2047) (fraction : Fin (Nat.pow 2 52))
  deriving DecidableEq, Repr, Inhabited

namespace Double

/-! ### Magnitudes -/

/-- The whole-number factor of a magnitude. -/
def significand (exponent : Fin 2047) (fraction : Fin (Nat.pow 2 52)) : Nat :=
  if exponent.val = 0 then fraction.val else Nat.pow 2 52 + fraction.val

/-- The power of two that goes with the significand. -/
def scale (exponent : Fin 2047) : Int := max exponent.val 1 - 1075

/-- The place of a magnitude among all finite magnitudes. -/
def ordinal (exponent : Fin 2047) (fraction : Fin (Nat.pow 2 52)) : Nat :=
  exponent.val * Nat.pow 2 52 + fraction.val

/-- The double with a given place; past the last one lies infinity. -/
def ofOrdinal (negative : Bool) (n : Nat) : Double :=
  if h : n < Nat.pow 2 52 * 2047 then
    .finite negative ⟨n / Nat.pow 2 52, Nat.div_lt_of_lt_mul h⟩
      ⟨n % Nat.pow 2 52, Nat.mod_lt _ (by decide)⟩
  else .infinite negative

/-- Zero with a sign. -/
def zero (negative : Bool) : Double := ofOrdinal negative 0

/-- The exact magnitude as a fraction, numerator and denominator. -/
def magnitude (exponent : Fin 2047) (fraction : Fin (Nat.pow 2 52)) : Nat × Nat :=
  let m := significand exponent fraction
  match scale exponent with
  | .ofNat q => (m * Nat.pow 2 q, 1)
  | .negSucc q => (m, Nat.pow 2 (q + 1))

/-- The exact value as a fraction; NaN and the infinities have none. -/
def ratio? : Double → Option (Int × Nat)
  | .finite negative e f =>
    let (n, d) := magnitude e f
    some (if negative then -(n : Int) else n, d)
  | _ => none

theorem ofOrdinal_ordinal (negative : Bool) (e : Fin 2047) (f : Fin (Nat.pow 2 52)) :
    ofOrdinal negative (ordinal e f) = .finite negative e f := by
  have he := e.isLt
  have hf : f.val < 4503599627370496 := f.isLt
  have hlt : ordinal e f < Nat.pow 2 52 * 2047 := by
    show e.val * 4503599627370496 + f.val < 4503599627370496 * 2047
    omega
  have hd : ordinal e f / Nat.pow 2 52 = e.val := by
    show (e.val * 4503599627370496 + f.val) / 4503599627370496 = e.val
    omega
  have hm : ordinal e f % Nat.pow 2 52 = f.val := by
    show (e.val * 4503599627370496 + f.val) % 4503599627370496 = f.val
    omega
  rw [ofOrdinal, dif_pos hlt]
  exact (Double.finite.injEq ..).mpr ⟨rfl, Fin.ext hd, Fin.ext hm⟩

/-! ### Comparison -/

/-- Equality of numbers: the two zeros are equal, and NaN equals nothing. -/
def equals : Double → Double → Bool
  | .infinite a, .infinite b => a = b
  | .finite a e f, .finite b e' f' =>
    (a = b ∧ ordinal e f = ordinal e' f') ∨ (ordinal e f = 0 ∧ ordinal e' f' = 0)
  | _, _ => false

/-- Equality with a whole number, without rounding. -/
def equalsInt (x : Double) (n : Int) : Bool :=
  match x.ratio? with
  | some (a, b) => a = n * b
  | none => false

end Double

end JsonPaths
