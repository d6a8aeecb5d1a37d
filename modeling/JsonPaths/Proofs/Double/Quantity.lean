/-
JsonPaths/Proofs/Double/Quantity.lean

Comparing doubles by the exact numbers that they stand for.

A finite double stands for a rational number, the infinities for two numbers of their
own, and NaN for none.  Two doubles are equal if they stand for one number
(`equals_iff`), and a double equals the whole number that it stands for
(`equalsInt_iff`): neither comparison rounds.
-/
import JsonPaths.Proofs.Double.Nearest

namespace JsonPaths

/-- An exact number, or one of the infinities. -/
inductive Quantity where
  | finite (q : ℚ)
  | infinite (negative : Bool)

namespace Double

variable {e e' : Fin 2047} {f f' : Fin (Nat.pow 2 52)} {x y : Double}

/-- A magnitude with a sign. -/
def signed (negative : Bool) (q : ℚ) : ℚ := if negative then -q else q

/-- What a double stands for. -/
def quantity? : Double → Option Quantity
  | .nan => none
  | .infinite negative => some (.infinite negative)
  | .finite negative e f => some (.finite (signed negative (significand e f * 2 ^ scale e)))

/-! ### Magnitudes -/

theorem magnitude_den_pos (e : Fin 2047) (f : Fin (Nat.pow 2 52)) : 0 < (magnitude e f).2 := by
  unfold magnitude
  dsimp only
  split
  · exact Nat.one_pos
  · exact Nat.pow_pos Nat.two_pos

/-- The fraction that a magnitude is written as is the magnitude. -/
theorem magnitude_eq (e : Fin 2047) (f : Fin (Nat.pow 2 52)) :
    ((magnitude e f).1 : ℚ) / (magnitude e f).2 = significand e f * 2 ^ scale e := by
  unfold magnitude
  dsimp only
  split
  · next q hq =>
    rw [hq, Int.ofNat_eq_natCast, zpow_natCast, Nat.cast_one, div_one]
    show ((significand e f * 2 ^ q : Nat) : ℚ) = _
    push_cast
    rfl
  · next q hq =>
    rw [hq, zpow_negSucc, ← div_eq_mul_inv]
    show (significand e f : ℚ) / ((2 ^ (q + 1) : Nat) : ℚ) = _
    push_cast
    rfl

theorem magnitude_nonneg (e : Fin 2047) (f : Fin (Nat.pow 2 52)) :
    (0 : ℚ) ≤ significand e f * 2 ^ scale e :=
  mul_nonneg (Nat.cast_nonneg _) (zpow_nonneg zero_le_two _)

theorem magnitude_eq_zero : (significand e f * 2 ^ scale e : ℚ) = 0 ↔ ordinal e f = 0 := by
  rw [ordinal_eq_zero_iff, mul_eq_zero, or_iff_left (zpow_ne_zero _ two_ne_zero), Nat.cast_eq_zero]

/-- A magnitude has one exponent and one fraction. -/
theorem magnitude_inj
    (h : (significand e f * 2 ^ scale e : ℚ) = significand e' f' * 2 ^ scale e') :
    ordinal e f = ordinal e' f' := by
  have hd := magnitude_den_pos e f
  have hself : nearest false (magnitude e f).1 (magnitude e f).2 = .finite false e f :=
    nearest_eq_finite hd (magnitude_eq e f)
  have hother : nearest false (magnitude e f).1 (magnitude e f).2 = .finite false e' f' :=
    nearest_eq_finite hd ((magnitude_eq e f).trans h)
  injection hself.symm.trans hother with _ he hf
  rw [he, hf]

theorem eq_of_ordinal_eq (h : ordinal e f = ordinal e' f') : e = e' ∧ f = f' := by
  have h' : finite false e f = .finite false e' f' := by
    rw [← ofOrdinal_ordinal, ← ofOrdinal_ordinal, h]
  injection h' with _ he hf
  exact ⟨he, hf⟩

/-- Numbers with a sign are equal if the signs and the magnitudes are, and if both are
zero. -/
theorem signed_eq_iff {a b : Bool} {p q : ℚ} (hp : 0 ≤ p) (hq : 0 ≤ q) :
    signed a p = signed b q ↔ (a = b ∧ p = q) ∨ (p = 0 ∧ q = 0) := by
  constructor
  · intro h
    by_cases hab : a = b
    · subst hab
      refine .inl ⟨rfl, ?_⟩
      cases a
      · exact h
      · exact neg_injective h
    · refine .inr ?_
      cases a <;> cases b <;> simp [signed] at hab h <;> constructor <;> linarith
  · rintro (⟨rfl, rfl⟩ | ⟨rfl, rfl⟩)
    · rfl
    · simp [signed]

/-! ### Comparison -/

/-- **Two doubles are equal if they stand for one number.** -/
theorem equals_iff : x.equals y = true ↔ ∃ q, x.quantity? = some q ∧ y.quantity? = some q := by
  cases x with
  | nan => simp [equals, quantity?]
  | infinite a => cases y <;> simp [equals, quantity?, eq_comm]
  | finite a e f =>
    cases y with
    | nan => simp [equals, quantity?]
    | infinite b => simp [equals, quantity?]
    | finite b e' f' =>
      have hplace : (significand e f * 2 ^ scale e : ℚ) = significand e' f' * 2 ^ scale e' ↔
          ordinal e f = ordinal e' f' := by
        refine ⟨magnitude_inj, fun h => ?_⟩
        obtain ⟨rfl, rfl⟩ := eq_of_ordinal_eq h
        rfl
      have hsigned := signed_eq_iff (a := a) (b := b) (magnitude_nonneg e f)
        (magnitude_nonneg e' f')
      rw [hplace, magnitude_eq_zero, magnitude_eq_zero] at hsigned
      have hequals : (finite a e f).equals (.finite b e' f') = true ↔
          (a = b ∧ ordinal e f = ordinal e' f') ∨ (ordinal e f = 0 ∧ ordinal e' f' = 0) :=
        decide_eq_true_iff
      rw [hequals, ← hsigned]
      simp [quantity?, eq_comm]

theorem ratio?_finite (negative : Bool) (e : Fin 2047) (f : Fin (Nat.pow 2 52)) :
    ∃ a : Int, (finite negative e f).ratio? = some (a, (magnitude e f).2) ∧
      (a : ℚ) / (magnitude e f).2 = signed negative (significand e f * 2 ^ scale e) := by
  refine ⟨_, rfl, ?_⟩
  rw [← magnitude_eq]
  cases negative
  · rfl
  · show ((-((magnitude e f).1 : Int) : Int) : ℚ) / _ = -_
    push_cast
    ring

/-- **A double equals the whole number that it stands for.** -/
theorem equalsInt_iff {n : Int} :
    x.equalsInt n = true ↔ x.quantity? = some (.finite n) := by
  cases x with
  | nan => simp [equalsInt, ratio?, quantity?]
  | infinite => simp [equalsInt, ratio?, quantity?]
  | finite negative e f =>
    obtain ⟨a, hratio, ha⟩ := ratio?_finite negative e f
    have hd : ((magnitude e f).2 : ℚ) ≠ 0 := by
      exact_mod_cast (magnitude_den_pos e f).ne'
    have hequals : (finite negative e f).equalsInt n = true ↔ a = n * (magnitude e f).2 := by
      rw [equalsInt, hratio]
      exact decide_eq_true_iff
    have hquantity : (finite negative e f).quantity? = some (.finite n) ↔
        (a : ℚ) / (magnitude e f).2 = n := by
      rw [ha]
      simp [quantity?]
    rw [hequals, hquantity, div_eq_iff hd]
    exact_mod_cast Iff.rfl

end Double

end JsonPaths
