/-
JsonPaths/Proofs/Text/Digits.lean

Decimal digits and the numbers that they write.

The digits of a number have no zero in front (`head_toDigits`) and are as many as the
logarithm says (`length_toDigits`).  A run of digits is cut from a text where another
character follows (`span_digits`).
-/
import JsonPaths.Text.Numeral
import JsonPaths.Proofs.Text.Pieces
import Mathlib.Algebra.Group.Nat.Defs
import Mathlib.Data.Nat.Log
import Mathlib.Data.List.TakeDrop

namespace JsonPaths.Text

/-! ### The digits of a number -/

theorem length_toDigits {b n : Nat} (hb : 1 < b) (hn : n ≠ 0) :
    (Nat.toDigits b n).length = Nat.log b n + 1 := by
  refine le_antisymm ?_ ?_
  · exact (Nat.length_toDigits_le_iff hb (by omega)).2 (Nat.lt_pow_succ_log_self hb n)
  · by_contra h
    have hle : (Nat.toDigits b n).length ≤ Nat.log b n := by omega
    have hpos : 0 < Nat.log b n :=
      lt_of_lt_of_le (List.length_pos_iff.2 Nat.toDigits_ne_nil) hle
    exact absurd ((Nat.length_toDigits_le_iff hb hpos).1 hle)
      (Nat.not_lt.2 (Nat.pow_log_le_self b hn))

/-- The digits of a number that is not zero have no zero in front. -/
theorem head_toDigits {n : Nat} (hn : n ≠ 0) :
    ∃ d ds, Nat.toDigits 10 n = d :: ds ∧ d ≠ '0' := by
  induction n using Nat.strongRecOn with
  | ind n ih =>
    by_cases hlt : n < 10
    · have hdigit : ∀ k < 10, k ≠ 0 → k.digitChar ≠ '0' := by decide
      exact ⟨n.digitChar, [], Nat.toDigits_of_lt_base hlt, hdigit n hlt hn⟩
    · obtain ⟨d, ds, h, hd⟩ := ih (n / 10) (by omega) (by omega)
      refine ⟨d, ds ++ [(n % 10).digitChar], ?_, hd⟩
      rw [Nat.toDigits_of_base_le (by omega) (by omega), h]
      rfl

theorem isDigit_of_mem_toDigits {n : Nat} : ∀ c ∈ Nat.toDigits 10 n, c.isDigit = true :=
  fun _ hc => Nat.isDigit_of_mem_toDigits (by decide) (by decide) hc

/-! ### The number of some digits -/

theorem ofDigitChars_zeros (k : Nat) (ds : List Char) :
    Nat.ofDigitChars 10 (List.replicate k '0' ++ ds) 0 = Nat.ofDigitChars 10 ds 0 := by
  rw [Nat.ofDigitChars_append, Nat.ofDigitChars_replicate_zero, Nat.mul_zero]

theorem ofDigitChars_append_zeros (ds : List Char) (k : Nat) :
    Nat.ofDigitChars 10 (ds ++ List.replicate k '0') 0 = Nat.ofDigitChars 10 ds 0 * 10 ^ k := by
  rw [Nat.ofDigitChars_append, Nat.ofDigitChars_replicate_zero, Nat.mul_comm]

/-- The digits of a whole number and its sign give the number back. -/
theorem signed_toDigits (n : Int) :
    signed (decide (n < 0)) (Nat.toDigits 10 n.natAbs) = n := by
  unfold signed
  rw [Nat.ofDigitChars_ten_toDigits]
  by_cases h : n < 0
  · simp only [h, decide_true, if_true]
    omega
  · simp only [h, decide_false, Bool.false_eq_true, if_false]
    omega

/-! ### Runs of digits -/

theorem span_digits {ds r : List Char} (hds : ∀ c ∈ ds, c.isDigit = true)
    (hr : ∀ c ∈ r.head?, c.isDigit = false) : (ds ++ r).span Char.isDigit = (ds, r) := by
  obtain ⟨htake, hdrop⟩ := cut_append hds hr
  rw [List.span_eq_takeWhile_dropWhile, htake, hdrop]

end JsonPaths.Text
