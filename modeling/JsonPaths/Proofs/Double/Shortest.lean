/-
JsonPaths/Proofs/Double/Shortest.lean

The shortest decimal reads back.

The digits of a double are found by a search on decimal grids, and every number that the
search returns has been rounded and compared (`readsBack_of_onGrid?`).  Should it return
none, the exact decimal stands in, which is the magnitude itself (`exactDecimal_value`).
Either way the decimal is read as the double (`ofDecimal_shortest`).
-/
import JsonPaths.Double.Shortest
import JsonPaths.Proofs.Double.Nearest
import Mathlib.Data.List.TakeWhile

namespace JsonPaths.Double

variable {e : Fin 2047} {f : Fin (Nat.pow 2 52)}

/-- Whether a decimal number is read as the magnitude. -/
def ReadsBack (e : Fin 2047) (f : Fin (Nat.pow 2 52)) (c : Decimal) : Prop :=
  ofDecimal false c.digits c.exponent = .finite false e f

/-! ### The search -/

/-- What the search returns reads back: where both neighbours do, so does the nearer one,
since it is one of them. -/
theorem readsBack_of_onGrid? {k : Int} {c : Decimal} (h : onGrid? e f k = some c) :
    ReadsBack e f c := by
  unfold onGrid? at h
  dsimp only at h
  generalize inUnits (magnitude e f).1 (magnitude e f).2 k = u at h
  obtain ⟨n, d⟩ := u
  dsimp only at h
  split at h
  · next hlow hhigh =>
    cases h
    show ofDecimal false (roundHalfEven n d) k = _
    rcases roundHalfEven_eq_or n d with hr | hr
    · rw [hr]
      exact of_decide_eq_true hlow
    · rw [hr]
      exact of_decide_eq_true hhigh
  · next hlow _ =>
    cases h
    show ofDecimal false (n / d) k = _
    exact of_decide_eq_true hlow
  · next _ hhigh =>
    cases h
    show ofDecimal false (n / d + 1) k = _
    exact of_decide_eq_true hhigh
  · cases h

/-! ### The exact decimal -/

theorem exactDecimal_value (e : Fin 2047) (f : Fin (Nat.pow 2 52)) :
    ((exactDecimal e f).digits : ℚ) * 10 ^ (exactDecimal e f).exponent =
      significand e f * 2 ^ scale e := by
  unfold exactDecimal
  dsimp only
  split
  · next q hq =>
    rw [hq, Int.ofNat_eq_natCast, zpow_natCast, zpow_zero, mul_one]
    show ((significand e f * 2 ^ q : Nat) : ℚ) = _
    push_cast
    rfl
  · next q hq =>
    show ((significand e f * 5 ^ (q + 1) : Nat) : ℚ) * 10 ^ Int.negSucc q = _
    rw [hq, zpow_negSucc, zpow_negSucc, show (10 : ℚ) = 5 * 2 by norm_num, mul_pow]
    push_cast
    field_simp

theorem readsBack_exactDecimal : ReadsBack e f (exactDecimal e f) :=
  ofDecimal_eq_finite (exactDecimal_value e f)

/-! ### The shortest decimal -/

/-- **The digits of a double are read as this double**, with its sign. -/
theorem ofDecimal_shortest (negative : Bool) (e : Fin 2047) (f : Fin (Nat.pow 2 52)) :
    ofDecimal negative (shortest e f).digits (shortest e f).exponent =
      .finite negative e f := by
  have hback : ReadsBack e f (shortest e f) := by
    unfold shortest
    dsimp only
    generalize hs : (List.range 17).findSome? _ = found
    cases found with
    | none => exact readsBack_exactDecimal
    | some c =>
      obtain ⟨i, -, hi⟩ := List.exists_of_findSome?_eq_some hs
      exact readsBack_of_onGrid? hi
  rw [← withSign_ofDecimal negative false, hback]
  rfl

theorem digits_shortest_ne_zero (h : ordinal e f ≠ 0) : (shortest e f).digits ≠ 0 := by
  intro hz
  have hback := ofDecimal_shortest false e f
  have hzero : zero false = .finite false 0 0 := by decide
  rw [hz, ofDecimal_zero, hzero] at hback
  cases hback
  exact h rfl

/-! ### Significant digits -/

/-- The digits of a number are its significant digits and zeros. -/
theorem exists_toDigits_eq (c : Nat) :
    ∃ k, Nat.toDigits 10 c = significantDigits c ++ List.replicate k '0' := by
  have hzeros : ∀ d ∈ (Nat.toDigits 10 c).reverse.takeWhile (· = '0'), d = '0' := by
    intro d hd
    simpa using List.mem_takeWhile_imp hd
  refine ⟨((Nat.toDigits 10 c).reverse.takeWhile (· = '0')).length, ?_⟩
  conv_lhs => rw [← (Nat.toDigits 10 c).reverse_reverse,
    ← (Nat.toDigits 10 c).reverse.takeWhile_append_dropWhile (p := (· = '0')),
    List.reverse_append]
  rw [List.eq_replicate_of_mem hzeros, List.length_replicate, List.reverse_replicate]
  rfl

theorem isDigit_of_mem_significantDigits {c : Nat} :
    ∀ d ∈ significantDigits c, d.isDigit = true := by
  intro d hd
  obtain ⟨k, hk⟩ := exists_toDigits_eq c
  refine Text.isDigit_of_mem_toDigits (n := c) d ?_
  rw [hk]
  exact List.mem_append_left _ hd

/-- There is a significant digit unless the number is zero, and the first one is no
zero. -/
theorem head_significantDigits {c : Nat} (hc : c ≠ 0) :
    ∃ d ds, significantDigits c = d :: ds ∧ d ≠ '0' := by
  obtain ⟨k, hk⟩ := exists_toDigits_eq c
  obtain ⟨d, ds, hd, hne⟩ := Text.head_toDigits hc
  rw [hd] at hk
  cases h : significantDigits c with
  | nil =>
    rw [h, List.nil_append] at hk
    have hmem : d ∈ List.replicate k '0' := hk ▸ List.mem_cons_self
    exact absurd (List.eq_of_mem_replicate hmem) hne
  | cons d' ds' =>
    rw [h, List.cons_append, List.cons.injEq] at hk
    exact ⟨d', ds', rfl, hk.1 ▸ hne⟩

/-- The significant digits of the shortest decimal, with the point where the text has it,
are read as the double. -/
theorem ofDecimal_significantDigits (negative : Bool) (e : Fin 2047)
    (f : Fin (Nat.pow 2 52)) :
    ofDecimal negative (Nat.ofDigitChars 10 (significantDigits (shortest e f).digits) 0)
        ((Nat.toDigits 10 (shortest e f).digits).length + (shortest e f).exponent -
          (significantDigits (shortest e f).digits).length) =
      .finite negative e f := by
  obtain ⟨k, hk⟩ := exists_toDigits_eq (shortest e f).digits
  have hvalue : (shortest e f).digits =
      Nat.ofDigitChars 10 (significantDigits (shortest e f).digits) 0 * 10 ^ k := by
    rw [← Text.ofDigitChars_append_zeros, ← hk, Nat.ofDigitChars_ten_toDigits]
  have hlength : (Nat.toDigits 10 (shortest e f).digits).length =
      (significantDigits (shortest e f).digits).length + k := by
    rw [hk, List.length_append, List.length_replicate]
  rw [hlength, ← ofDecimal_shortest negative e f]
  conv_rhs => rw [hvalue, ofDecimal_mul_pow]
  congr 1
  push_cast
  ring

end JsonPaths.Double
