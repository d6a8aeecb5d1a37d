/-
JsonPaths/Proofs/Double/Nearest.lean

Rounding depends on the number alone, and keeps the doubles.

`nearest` and `ofDecimal` are given a number in one of many forms, as a fraction or as
digits with an exponent.  Two forms of one rational number round alike (`nearest_congr`,
`ofDecimal_congr`), since the exponents in use are logarithms of that number.  A number
that is the magnitude of a double rounds to this double (`nearest_eq_finite`,
`ofDecimal_eq_finite`).
-/
import JsonPaths.Double.Rounding
import JsonPaths.Proofs.Text.Digits
import Mathlib.Data.Int.Log
import Mathlib.Data.Rat.Floor
import Mathlib.Tactic.Ring
import Mathlib.Tactic.NormNum
import Mathlib.Tactic.Positivity
import Mathlib.Tactic.FieldSimp
import Mathlib.Tactic.Linarith

namespace JsonPaths.Double

/-! ### Logarithms -/

/-- The logarithm is the exponent of the power that is reached. -/
theorem log_eq_of_bounds {b : Nat} (hb : 1 < b) {x : ℚ} {e : ℤ} (hlow : (b : ℚ) ^ e ≤ x)
    (hhigh : x < (b : ℚ) ^ (e + 1)) : Int.log b x = e := by
  have hx : 0 < x := lt_of_lt_of_le (zpow_pos (by exact_mod_cast (by omega : 0 < b)) e) hlow
  have hle : e ≤ Int.log b x := (Int.zpow_le_iff_le_log hb hx).1 hlow
  have hlt : Int.log b x < e + 1 := (Int.lt_zpow_iff_log_lt hb hx).1 hhigh
  omega

/-- A factor that is a power of the base is added to the logarithm. -/
theorem log_mul_zpow {b : Nat} (hb : 1 < b) {n : Nat} (hn : n ≠ 0) (e : ℤ) :
    Int.log b ((n : ℚ) * (b : ℚ) ^ e) = Nat.log b n + e := by
  have hpos : (0 : ℚ) < b := by exact_mod_cast (by omega : 0 < b)
  have hlow : (b : ℚ) ^ (Nat.log b n) ≤ n := by exact_mod_cast Nat.pow_log_le_self b hn
  have hhigh : (n : ℚ) < (b : ℚ) ^ (Nat.log b n + 1) := by
    exact_mod_cast Nat.lt_pow_succ_log_self hb n
  have hpow := zpow_pos hpos e
  refine log_eq_of_bounds hb ?_ ?_
  · rw [zpow_add₀ hpos.ne', zpow_natCast]
    exact mul_le_mul_of_nonneg_right hlow hpow.le
  · rw [show (Nat.log b n : ℤ) + e + 1 = ((Nat.log b n + 1 : ℕ) : ℤ) + e by push_cast; ring,
      zpow_add₀ hpos.ne', zpow_natCast]
    exact mul_lt_mul_of_pos_right hhigh hpow

/-! ### Rounding a fraction -/

theorem roundHalfEven_mul {k : Nat} (hk : 0 < k) (n d : Nat) :
    roundHalfEven (n * k) (d * k) = roundHalfEven n d := by
  have hlt : 2 * (n % d * k) < d * k ↔ 2 * (n % d) < d := by
    rw [← Nat.mul_assoc, Nat.mul_lt_mul_right hk]
  have hgt : d * k < 2 * (n % d * k) ↔ d < 2 * (n % d) := by
    rw [← Nat.mul_assoc, Nat.mul_lt_mul_right hk]
  simp only [roundHalfEven, Nat.mul_div_mul_right _ _ hk, Nat.mul_mod_mul_right, hlt, hgt]

/-- Equal fractions are rounded alike. -/
theorem roundHalfEven_congr {n d n' d' : Nat} (hd : 0 < d) (hd' : 0 < d')
    (h : n * d' = n' * d) : roundHalfEven n d = roundHalfEven n' d' := by
  rw [← roundHalfEven_mul hd' n d, ← roundHalfEven_mul hd n' d', h, Nat.mul_comm d d']

theorem roundHalfEven_exact {d : Nat} (hd : 0 < d) (m : Nat) : roundHalfEven (m * d) d = m := by
  simp [roundHalfEven, Nat.mul_div_cancel _ hd, hd]

/-- The rounded number is one of the two whole numbers around the fraction. -/
theorem roundHalfEven_eq_or (n d : Nat) :
    roundHalfEven n d = n / d ∨ roundHalfEven n d = n / d + 1 := by
  have := Nat.mod_two_eq_zero_or_one (n / d)
  unfold roundHalfEven
  dsimp only
  split
  · exact .inl rfl
  · split
    · exact .inr rfl
    · omega

/-- A power of two is compared with a fraction by whole numbers. -/
theorem zpow_le_div_iff {n d : Nat} (hd : 0 < d) (q : ℤ) :
    (2 : ℚ) ^ q ≤ (n : ℚ) / d ↔
      (match q with
        | .ofNat k => decide (d * Nat.pow 2 k ≤ n)
        | .negSucc k => decide (d ≤ n * Nat.pow 2 (k + 1))) = true := by
  have hd' : (0 : ℚ) < d := by exact_mod_cast hd
  rw [le_div_iff₀ hd']
  cases q with
  | ofNat k =>
    rw [Int.ofNat_eq_natCast, zpow_natCast, mul_comm, decide_eq_true_iff]
    exact_mod_cast Iff.rfl
  | negSucc k =>
    rw [zpow_negSucc, inv_mul_le_iff₀ (by positivity), mul_comm, decide_eq_true_iff]
    exact_mod_cast Iff.rfl

theorem binaryExponent_eq_log {n d : Nat} (hn : 0 < n) (hd : 0 < d) :
    binaryExponent n d = Int.log 2 ((n : ℚ) / d) := by
  have hd' : (0 : ℚ) < d := by exact_mod_cast hd
  have hn' : (0 : ℚ) < n := by exact_mod_cast hn
  have hnlow : (2 : ℚ) ^ (n.log2 : ℤ) ≤ n := by exact_mod_cast Nat.log2_self_le (by omega)
  have hnhigh : (n : ℚ) < 2 ^ ((n.log2 : ℤ) + 1) := by exact_mod_cast Nat.lt_log2_self
  have hdlow : (2 : ℚ) ^ (d.log2 : ℤ) ≤ d := by exact_mod_cast Nat.log2_self_le (by omega)
  have hdhigh : (d : ℚ) < 2 ^ ((d.log2 : ℤ) + 1) := by exact_mod_cast Nat.lt_log2_self
  have hpow (q : ℤ) : (0 : ℚ) < 2 ^ q := zpow_pos two_pos q
  -- the difference of the two logarithms is right or one too much
  have hhigh : (n : ℚ) / d < 2 ^ ((n.log2 : ℤ) - d.log2 + 1) :=
    calc (n : ℚ) / d < 2 ^ ((n.log2 : ℤ) + 1) / 2 ^ (d.log2 : ℤ) :=
          div_lt_div₀ hnhigh hdlow (hpow _).le (hpow _)
      _ = 2 ^ ((n.log2 : ℤ) - d.log2 + 1) := by
          rw [← zpow_sub₀ two_ne_zero, sub_add_eq_add_sub]
  have hlow : (2 : ℚ) ^ ((n.log2 : ℤ) - d.log2 - 1) ≤ (n : ℚ) / d :=
    calc (2 : ℚ) ^ ((n.log2 : ℤ) - d.log2 - 1) = 2 ^ (n.log2 : ℤ) / 2 ^ ((d.log2 : ℤ) + 1) := by
          rw [← zpow_sub₀ two_ne_zero, sub_sub]
      _ ≤ (n : ℚ) / d := div_le_div₀ hn'.le hnlow hd' hdhigh.le
  have hfits := zpow_le_div_iff (n := n) hd ((n.log2 : ℤ) - d.log2)
  by_cases hle : (2 : ℚ) ^ ((n.log2 : ℤ) - d.log2) ≤ (n : ℚ) / d
  · have hvalue : binaryExponent n d = (n.log2 : ℤ) - d.log2 := if_pos (hfits.1 hle)
    rw [hvalue]
    exact (log_eq_of_bounds one_lt_two hle hhigh).symm
  · have hvalue : binaryExponent n d = (n.log2 : ℤ) - d.log2 - 1 := if_neg (hfits.not.1 hle)
    rw [hvalue]
    refine (log_eq_of_bounds one_lt_two hlow ?_).symm
    rw [sub_add_cancel]
    exact lt_of_not_ge hle

/-! ### Signs -/

/-- A number with the sign given. -/
def withSign (negative : Bool) : Double → Double
  | .nan => .nan
  | .infinite _ => .infinite negative
  | .finite _ e f => .finite negative e f

theorem withSign_ofOrdinal (negative sign : Bool) (k : Nat) :
    (ofOrdinal sign k).withSign negative = ofOrdinal negative k := by
  unfold ofOrdinal
  split <;> rfl

theorem withSign_nearest (negative sign : Bool) (n d : Nat) :
    (nearest sign n d).withSign negative = nearest negative n d := by
  unfold nearest
  split
  · exact withSign_ofOrdinal ..
  · exact withSign_ofOrdinal ..

/-- The sign takes no part in the rounding. -/
theorem withSign_ofDecimal (negative sign : Bool) (digits : Nat) (exponent : Int) :
    (ofDecimal sign digits exponent).withSign negative = ofDecimal negative digits exponent := by
  unfold ofDecimal
  dsimp only
  split
  · exact withSign_ofOrdinal ..
  · split
    · rfl
    · split
      · exact withSign_ofOrdinal ..
      · cases exponent <;> exact withSign_nearest ..

/-! ### The nearest double to a fraction -/

/-- The number of units `2 ^ q` in `n / d`, rounded to a whole number. -/
def roundAt (n d : Nat) : (q : Int) → Nat
  | .ofNat k => roundHalfEven n (d * Nat.pow 2 k)
  | .negSucc k => roundHalfEven (n * Nat.pow 2 (k + 1)) d

theorem roundAt_congr {n d n' d' : Nat} (hd : 0 < d) (hd' : 0 < d') (h : n * d' = n' * d)
    (q : ℤ) : roundAt n d q = roundAt n' d' q := by
  cases q with
  | ofNat k =>
    have hk : 0 < Nat.pow 2 k := Nat.two_pow_pos k
    refine roundHalfEven_congr (Nat.mul_pos hd hk) (Nat.mul_pos hd' hk) ?_
    rw [← Nat.mul_assoc, h, Nat.mul_assoc]
  | negSucc k =>
    refine roundHalfEven_congr hd hd' ?_
    rw [Nat.mul_right_comm, h, Nat.mul_right_comm]

/-- A whole number of units is not rounded. -/
theorem roundAt_exact {n d m : Nat} {q : ℤ} (hd : 0 < d) (h : (n : ℚ) / d = m * 2 ^ q) :
    roundAt n d q = m := by
  have hd' : (d : ℚ) ≠ 0 := by exact_mod_cast hd.ne'
  rw [div_eq_iff hd'] at h
  cases q with
  | ofNat k =>
    have heq : n = m * (d * Nat.pow 2 k) := by
      rw [Int.ofNat_eq_natCast, zpow_natCast] at h
      have h : n = m * 2 ^ k * d := by exact_mod_cast h
      rw [h, Nat.mul_assoc, Nat.mul_comm (2 ^ k)]
      rfl
    rw [roundAt, heq]
    exact roundHalfEven_exact (Nat.mul_pos hd (Nat.two_pow_pos k)) m
  | negSucc k =>
    have heq : n * Nat.pow 2 (k + 1) = m * d := by
      rw [zpow_negSucc, mul_assoc, mul_comm _ (d : ℚ), ← mul_assoc, ← div_eq_mul_inv,
        eq_div_iff (by positivity)] at h
      exact_mod_cast h
    rw [roundAt, heq]
    exact roundHalfEven_exact hd m

variable {negative : Bool}

/-- The unit is that of the binade, and not less than the least one. -/
theorem nearest_eq {n d : Nat} (hn : n ≠ 0) {q : ℤ}
    (hq : max (binaryExponent n d - 52) (-1074) = q) :
    nearest negative n d =
      ofOrdinal negative ((q + 1074).toNat * Nat.pow 2 52 + roundAt n d q) := by
  rw [nearest, if_neg hn, hq]
  cases q <;> rfl

/-- **The nearest double depends on the number alone**, not on the fraction that is given
for it. -/
theorem nearest_congr {n d n' d' : Nat} (hd : 0 < d) (hd' : 0 < d')
    (h : (n : ℚ) / d = (n' : ℚ) / d') : nearest negative n d = nearest negative n' d' := by
  have hcross : n * d' = n' * d := by
    rw [div_eq_div_iff (by exact_mod_cast hd.ne') (by exact_mod_cast hd'.ne')] at h
    exact_mod_cast h
  by_cases hn : n = 0
  · have hn' : n' = 0 := by
      rw [hn, Nat.zero_mul] at hcross
      exact (Nat.mul_eq_zero.1 hcross.symm).resolve_right hd.ne'
    rw [nearest, nearest, if_pos hn, if_pos hn']
  · have hn' : n' ≠ 0 := by
      rintro rfl
      rw [Nat.zero_mul] at hcross
      exact hn ((Nat.mul_eq_zero.1 hcross).resolve_right hd'.ne')
    have hexp : binaryExponent n d = binaryExponent n' d' := by
      rw [binaryExponent_eq_log (Nat.pos_of_ne_zero hn) hd,
        binaryExponent_eq_log (Nat.pos_of_ne_zero hn') hd', h]
    rw [nearest_eq hn rfl, nearest_eq hn' rfl, hexp, roundAt_congr hd hd' hcross]

/-- A whole multiple of the unit of its binade is not rounded. -/
theorem nearest_exact {n d m : Nat} {s : ℤ} (hd : 0 < d) (hm : m ≠ 0)
    (hhigh : m < Nat.pow 2 53) (hs : -1074 ≤ s) (hlow : s = -1074 ∨ Nat.pow 2 52 ≤ m)
    (h : (n : ℚ) / d = m * 2 ^ s) :
    nearest negative n d = ofOrdinal negative ((s + 1074).toNat * Nat.pow 2 52 + m) := by
  have hn : n ≠ 0 := by
    rintro rfl
    have hm' : (0 : ℚ) < m := by exact_mod_cast Nat.pos_of_ne_zero hm
    have := mul_pos hm' (zpow_pos two_pos s)
    simp [← h] at this
  have hlog : binaryExponent n d = Nat.log 2 m + s := by
    rw [binaryExponent_eq_log (Nat.pos_of_ne_zero hn) hd, h]
    exact log_mul_zpow one_lt_two hm s
  -- the multiple has 53 digits in base 2, or fewer where the scale is the least one
  have hunit : max (binaryExponent n d - 52) (-1074) = s := by
    have hlt : Nat.log 2 m < 53 := Nat.log_lt_of_lt_pow hm hhigh
    rw [hlog]
    rcases hlow with rfl | hlow
    · omega
    · have : 52 ≤ Nat.log 2 m := Nat.le_log_of_pow_le one_lt_two hlow
      omega
  rw [nearest_eq hn hunit, roundAt_exact hd h]

/-! ### The doubles themselves -/

theorem significand_lt (e : Fin 2047) (f : Fin (Nat.pow 2 52)) :
    significand e f < Nat.pow 2 53 := by
  have hf : f.val < 4503599627370496 := f.isLt
  unfold significand
  split
  · show f.val < 9007199254740992
    omega
  · show 4503599627370496 + f.val < 9007199254740992
    omega

theorem scale_bounds (e : Fin 2047) : -1074 ≤ scale e ∧ scale e ≤ 971 := by
  have he := e.isLt
  unfold scale
  omega

/-- A magnitude below the first binade has the least scale. -/
theorem scale_eq_or_le_significand (e : Fin 2047) (f : Fin (Nat.pow 2 52)) :
    scale e = -1074 ∨ Nat.pow 2 52 ≤ significand e f := by
  unfold scale significand
  split
  · next he =>
    rw [he]
    exact .inl rfl
  · exact .inr (Nat.le_add_right ..)

/-- The place of a magnitude counts units of its binade. -/
theorem ordinal_eq (e : Fin 2047) (f : Fin (Nat.pow 2 52)) :
    (scale e + 1074).toNat * Nat.pow 2 52 + significand e f = ordinal e f := by
  unfold scale significand ordinal
  show _ * 4503599627370496 + (if e.val = 0 then f.val else 4503599627370496 + f.val) =
    e.val * 4503599627370496 + f.val
  split <;> omega

theorem ordinal_eq_zero_iff {e : Fin 2047} {f : Fin (Nat.pow 2 52)} :
    ordinal e f = 0 ↔ significand e f = 0 := by
  unfold significand ordinal
  show e.val * 4503599627370496 + f.val = 0 ↔
    (if e.val = 0 then f.val else 4503599627370496 + f.val) = 0
  split <;> omega

/-- **A double is the nearest double to its own magnitude.** -/
theorem nearest_eq_finite {n d : Nat} {e : Fin 2047} {f : Fin (Nat.pow 2 52)} (hd : 0 < d)
    (h : (n : ℚ) / d = significand e f * 2 ^ scale e) :
    nearest negative n d = .finite negative e f := by
  rw [← ofOrdinal_ordinal]
  by_cases hm : significand e f = 0
  · have hd' : (d : ℚ) ≠ 0 := by exact_mod_cast hd.ne'
    have hn : n = 0 := by
      rw [hm, Nat.cast_zero, zero_mul, div_eq_zero_iff, or_iff_left hd'] at h
      exact_mod_cast h
    rw [nearest, if_pos hn, zero, ordinal_eq_zero_iff.2 hm]
  · rw [nearest_exact hd hm (significand_lt e f) (scale_bounds e).1
      (scale_eq_or_le_significand e f) h, ordinal_eq]

/-! ### The nearest double to a decimal number -/

section Decimal

variable {digits digits' : Nat} {exponent exponent' : Int}

theorem log_decimal (h : digits ≠ 0) (exponent : Int) :
    Int.log 10 ((digits : ℚ) * 10 ^ exponent) + 1 =
      (Nat.toDigits 10 digits).length + exponent := by
  have hlog : Int.log 10 ((digits : ℚ) * 10 ^ exponent) = Nat.log 10 digits + exponent := by
    exact_mod_cast log_mul_zpow (b := 10) (by norm_num) h exponent
  rw [hlog, Text.length_toDigits (by norm_num) h]
  push_cast
  ring

theorem ofDecimal_zero (negative : Bool) (exponent : Int) :
    ofDecimal negative 0 exponent = zero negative := by
  simp [ofDecimal]

theorem ofDecimal_of_huge (h : digits ≠ 0)
    (hsize : 310 < ((Nat.toDigits 10 digits).length + exponent : Int)) :
    ofDecimal negative digits exponent = .infinite negative :=
  (if_neg h).trans (if_pos hsize)

theorem ofDecimal_of_tiny (h : digits ≠ 0)
    (hsize : ((Nat.toDigits 10 digits).length + exponent : Int) < -330) :
    ofDecimal negative digits exponent = zero negative :=
  (if_neg h).trans ((if_neg (by omega)).trans (if_pos hsize))

/-- A decimal number that is neither too great nor too small is rounded as a
fraction. -/
theorem exists_nearest_eq (exponent : Int) (h : digits ≠ 0)
    (hhigh : ((Nat.toDigits 10 digits).length + exponent : Int) ≤ 310)
    (hlow : -330 ≤ ((Nat.toDigits 10 digits).length + exponent : Int)) :
    ∃ n d : Nat, 0 < d ∧ (n : ℚ) / d = digits * 10 ^ exponent ∧
      ∀ negative, ofDecimal negative digits exponent = nearest negative n d := by
  cases exponent with
  | ofNat k =>
    refine ⟨digits * Nat.pow 10 k, 1, one_pos, ?_, fun negative => ?_⟩
    · rw [Int.ofNat_eq_natCast, zpow_natCast]
      simp
    · exact (if_neg h).trans ((if_neg (by omega)).trans (if_neg (by omega)))
  | negSucc k =>
    refine ⟨digits, Nat.pow 10 (k + 1), Nat.pow_pos (by norm_num), ?_, fun negative => ?_⟩
    · rw [zpow_negSucc, ← div_eq_mul_inv]
      simp
    · exact (if_neg h).trans ((if_neg (by omega)).trans (if_neg (by omega)))

theorem decimal_eq_zero_iff (digits : Nat) (exponent : Int) :
    (digits : ℚ) * 10 ^ exponent = 0 ↔ digits = 0 := by
  rw [mul_eq_zero, or_iff_left (zpow_ne_zero exponent (by norm_num)), Nat.cast_eq_zero]

/-- **Reading a decimal number depends on the number alone**, not on how many zeros are
written at its end. -/
theorem ofDecimal_congr
    (h : (digits : ℚ) * 10 ^ exponent = digits' * 10 ^ exponent') :
    ofDecimal negative digits exponent = ofDecimal negative digits' exponent' := by
  by_cases hz : digits = 0
  · have hz' : digits' = 0 := by
      rwa [← decimal_eq_zero_iff digits' exponent', ← h, decimal_eq_zero_iff]
    rw [hz, hz', ofDecimal_zero, ofDecimal_zero]
  · have hz' : digits' ≠ 0 := by
      rwa [ne_eq, ← decimal_eq_zero_iff digits' exponent', ← h, decimal_eq_zero_iff]
    have hsize : ((Nat.toDigits 10 digits).length + exponent : Int) =
        (Nat.toDigits 10 digits').length + exponent' := by
      rw [← log_decimal hz, ← log_decimal hz', h]
    by_cases hhigh : 310 < ((Nat.toDigits 10 digits).length + exponent : Int)
    · rw [ofDecimal_of_huge hz hhigh, ofDecimal_of_huge hz' (hsize ▸ hhigh)]
    by_cases hlow : ((Nat.toDigits 10 digits).length + exponent : Int) < -330
    · rw [ofDecimal_of_tiny hz hlow, ofDecimal_of_tiny hz' (hsize ▸ hlow)]
    obtain ⟨n, d, hd, hnd, heq⟩ := exists_nearest_eq exponent hz
      (by omega) (by omega)
    obtain ⟨n', d', hd', hnd', heq'⟩ := exists_nearest_eq exponent' hz'
      (by omega) (by omega)
    rw [heq, heq']
    exact nearest_congr hd hd' (by rw [hnd, hnd', h])

/-- Zeros at the end may be counted in the exponent. -/
theorem ofDecimal_mul_pow (negative : Bool) (digits k : Nat) (exponent : Int) :
    ofDecimal negative (digits * 10 ^ k) exponent =
      ofDecimal negative digits (exponent + k) := by
  refine ofDecimal_congr ?_
  rw [zpow_add₀ (by norm_num), zpow_natCast]
  push_cast
  ring

/-- The magnitude of a double that is not zero lies between `10 ^ (-324)` and
`10 ^ 309`. -/
theorem magnitude_bounds {e : Fin 2047} {f : Fin (Nat.pow 2 52)} (h : significand e f ≠ 0) :
    (10 : ℚ) ^ (-324 : ℤ) ≤ significand e f * 2 ^ scale e ∧
      (significand e f : ℚ) * 2 ^ scale e < 10 ^ (309 : ℤ) := by
  have hlow : (1 : ℚ) ≤ significand e f := by exact_mod_cast Nat.one_le_iff_ne_zero.2 h
  have hhigh : (significand e f : ℚ) ≤ 2 ^ (53 : ℤ) := by exact_mod_cast (significand_lt e f).le
  obtain ⟨hscale, hscale'⟩ := scale_bounds e
  have hleast : (10 : ℚ) ^ (-324 : ℤ) ≤ 2 ^ (-1074 : ℤ) := by
    have hpow : 2 ^ 1074 ≤ 10 ^ 324 := by decide +kernel
    rw [zpow_neg, zpow_neg, inv_le_inv₀ (zpow_pos (by norm_num) _) (zpow_pos two_pos _)]
    exact_mod_cast hpow
  have hgreatest : (2 : ℚ) ^ (53 : ℤ) * 2 ^ (971 : ℤ) < 10 ^ (309 : ℤ) := by
    have hpow : 2 ^ 53 * 2 ^ 971 < 10 ^ 309 := by decide +kernel
    exact_mod_cast hpow
  constructor
  · calc (10 : ℚ) ^ (-324 : ℤ) ≤ 1 * 2 ^ (-1074 : ℤ) := by rwa [one_mul]
      _ ≤ significand e f * 2 ^ scale e :=
          mul_le_mul hlow (zpow_le_zpow_right₀ one_le_two hscale) (zpow_pos two_pos _).le
            (le_trans zero_le_one hlow)
  · calc (significand e f : ℚ) * 2 ^ scale e ≤ 2 ^ (53 : ℤ) * 2 ^ (971 : ℤ) :=
          mul_le_mul hhigh (zpow_le_zpow_right₀ one_le_two hscale') (zpow_pos two_pos _).le
            (zpow_pos two_pos _).le
      _ < 10 ^ (309 : ℤ) := hgreatest

/-- The magnitude of a double, in decimal, is read as this double. -/
theorem ofDecimal_eq_finite {e : Fin 2047} {f : Fin (Nat.pow 2 52)}
    (h : (digits : ℚ) * 10 ^ exponent = significand e f * 2 ^ scale e) :
    ofDecimal negative digits exponent = .finite negative e f := by
  by_cases hm : significand e f = 0
  · have hz : digits = 0 := by
      rw [← decimal_eq_zero_iff digits exponent, h, hm, Nat.cast_zero, zero_mul]
    rw [hz, ofDecimal_zero, zero, ← ordinal_eq_zero_iff.2 hm, ofOrdinal_ordinal]
  · obtain ⟨hlow, hhigh⟩ := magnitude_bounds hm
    rw [← h] at hlow hhigh
    have hvalue : (0 : ℚ) < digits * 10 ^ exponent :=
      lt_of_lt_of_le (zpow_pos (by norm_num) _) hlow
    have hz : digits ≠ 0 := by
      rw [ne_eq, ← decimal_eq_zero_iff digits exponent]
      exact hvalue.ne'
    have hlog := log_decimal hz exponent
    have hlt : Int.log 10 ((digits : ℚ) * 10 ^ exponent) < 309 :=
      (Int.lt_zpow_iff_log_lt (by norm_num) hvalue).1 (by exact_mod_cast hhigh)
    have hge : -324 ≤ Int.log 10 ((digits : ℚ) * 10 ^ exponent) :=
      (Int.zpow_le_iff_le_log (by norm_num) hvalue).1 (by exact_mod_cast hlow)
    obtain ⟨n, d, hd, hnd, heq⟩ := exists_nearest_eq exponent hz
      (by omega) (by omega)
    rw [heq]
    exact nearest_eq_finite hd (hnd.trans h)

end Decimal

end JsonPaths.Double
