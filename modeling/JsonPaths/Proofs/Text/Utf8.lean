/-
JsonPaths/Proofs/Text/Utf8.lean

Decoding undoes encoding.

A character takes one to four bytes.  The first byte tells how many follow and in which
range the second one lies, which keeps out the longer forms of small code points and the
surrogates; no character has a code point there (`decodeFrom_encodeChar`).  A text is
decoded from its bytes, character by character (`decode_encode`).
-/
import JsonPaths.Text.Utf8
import Mathlib.Tactic.Common

namespace JsonPaths.Text.Utf8

variable {pos start bits low high : Nat} {byte b : UInt8} {done s : List Char}
  {r : List UInt8} {range : Nat × Nat} {ranges : List (Nat × Nat)}

/-! ### One byte -/

theorem decodeFrom_single (h : lead b.toNat = some (bits, [])) :
    decodeFrom pos none done (b :: r) = decodeFrom (pos + 1) none (Char.ofNat bits :: done) r := by
  rw [decodeFrom]
  simp only [h]

theorem decodeFrom_first (h : lead b.toNat = some (bits, range :: ranges)) :
    decodeFrom pos none done (b :: r) =
      decodeFrom (pos + 1) (some ⟨b, pos, bits, range :: ranges⟩) done r := by
  rw [decodeFrom]
  simp only [h]

theorem decodeFrom_middle (h : low ≤ b.toNat ∧ b.toNat ≤ high) :
    decodeFrom pos (some ⟨byte, start, bits, (low, high) :: range :: ranges⟩) done (b :: r) =
      decodeFrom (pos + 1) (some ⟨byte, start, bits * 64 + (b.toNat - 0x80), range :: ranges⟩)
        done r := by
  rw [decodeFrom]
  simp only [if_pos h, List.isEmpty_cons, Bool.false_eq_true, if_false]

theorem decodeFrom_last (h : low ≤ b.toNat ∧ b.toNat ≤ high) :
    decodeFrom pos (some ⟨byte, start, bits, [(low, high)]⟩) done (b :: r) =
      decodeFrom (pos + 1) none (Char.ofNat (bits * 64 + (b.toNat - 0x80)) :: done) r := by
  rw [decodeFrom]
  simp only [if_pos h, List.isEmpty_nil, if_true]

/-! ### The bytes of a character -/

theorem toNat_byte {n : Nat} (h : n < 256) : (UInt8.ofNat n).toNat = n :=
  UInt8.toNat_ofNat_of_lt' h

variable {v : Nat}

theorem lead_one (h : v ≤ 127) : lead (UInt8.ofNat v).toNat = some (v, []) := by
  rw [toNat_byte (by omega)]
  exact if_pos (by omega)

theorem lead_two (hlow : 127 < v) (hhigh : v ≤ 2047) :
    lead (UInt8.ofNat (v / 64 % 32 + 192)).toNat = some (v / 64, [(0x80, 0xbf)]) := by
  have hbits : v / 64 % 32 + 192 - 192 = v / 64 := by omega
  rw [toNat_byte (by omega)]
  unfold lead
  rw [if_neg (by omega), if_neg (by omega), if_pos (by omega), hbits]

/-- The second of three bytes does not lie where a shorter form or a surrogate would have
it. -/
theorem lead_three (hlow : 2047 < v) (hhigh : v ≤ 65535) (hv : v < 0xd800 ∨ 0xe000 ≤ v) :
    ∃ low high, lead (UInt8.ofNat (v / 4096 % 16 + 224)).toNat =
        some (v / 4096, [(low, high), (0x80, 0xbf)]) ∧
      low ≤ (UInt8.ofNat (v / 64 % 64 + 128)).toNat ∧
        (UInt8.ofNat (v / 64 % 64 + 128)).toNat ≤ high := by
  have hbits : v / 4096 % 16 + 224 - 224 = v / 4096 := by omega
  rw [toNat_byte (by omega), toNat_byte (by omega)]
  unfold lead
  rw [if_neg (by omega), if_neg (by omega), if_neg (by omega), hbits]
  split
  · exact ⟨_, _, rfl, by omega, by omega⟩
  split
  · exact ⟨_, _, rfl, by omega, by omega⟩
  · rw [if_pos (by omega)]
    exact ⟨_, _, rfl, by omega, by omega⟩

theorem lead_four (hlow : 65535 < v) (hhigh : v < 0x110000) :
    ∃ low high, lead (UInt8.ofNat (v / 262144 % 8 + 240)).toNat =
        some (v / 262144, [(low, high), (0x80, 0xbf), (0x80, 0xbf)]) ∧
      low ≤ (UInt8.ofNat (v / 4096 % 64 + 128)).toNat ∧
        (UInt8.ofNat (v / 4096 % 64 + 128)).toNat ≤ high := by
  have hbits : v / 262144 % 8 + 240 - 240 = v / 262144 := by omega
  rw [toNat_byte (by omega), toNat_byte (by omega)]
  unfold lead
  rw [if_neg (by omega), if_neg (by omega), if_neg (by omega), if_neg (by omega),
    if_neg (by omega), if_neg (by omega), hbits]
  split
  · exact ⟨_, _, rfl, by omega, by omega⟩
  split
  · exact ⟨_, _, rfl, by omega, by omega⟩
  · rw [if_pos (by omega)]
    exact ⟨_, _, rfl, by omega, by omega⟩

/-- A byte that continues a sequence, with six bits of a number. -/
theorem tail_bounds (v : Nat) : 0x80 ≤ (UInt8.ofNat (v % 64 + 128)).toNat ∧
    (UInt8.ofNat (v % 64 + 128)).toNat ≤ 0xbf := by
  rw [toNat_byte (by omega)]
  omega

theorem tail_bits (v : Nat) : (UInt8.ofNat (v % 64 + 128)).toNat - 0x80 = v % 64 := by
  rw [toNat_byte (by omega)]
  omega

/-! ### Characters and texts -/

/-- **A character is decoded from its bytes.** -/
theorem decodeFrom_encodeChar (pos : Nat) (done : List Char) (c : Char) (r : List UInt8) :
    ∃ next, decodeFrom pos none done (String.utf8EncodeChar c ++ r) =
      decodeFrom next none (c :: done) r := by
  have hvalid : c.toNat < 0xd800 ∨ 0xdfff < c.toNat ∧ c.toNat < 0x110000 := c.valid
  have hchar {n : Nat} (h : n = c.toNat) : Char.ofNat n = c := by rw [h, Char.ofNat_toNat]
  rw [String.utf8EncodeChar.eq_1]
  simp only [show c.val.toNat = c.toNat from rfl]
  by_cases h1 : c.toNat ≤ 127
  · refine ⟨pos + 1, ?_⟩
    rw [if_pos h1, List.singleton_append, decodeFrom_single (lead_one h1), hchar rfl]
  by_cases h2 : c.toNat ≤ 2047
  · have hbits : c.toNat / 64 * 64 + c.toNat % 64 = c.toNat := by omega
    refine ⟨pos + 1 + 1, ?_⟩
    rw [if_neg h1, if_pos h2, List.cons_append, List.singleton_append,
      decodeFrom_first (lead_two (by omega) h2), decodeFrom_last (tail_bounds _), tail_bits,
      hchar hbits]
  by_cases h3 : c.toNat ≤ 65535
  · have hbits : (c.toNat / 4096 * 64 + c.toNat / 64 % 64) * 64 + c.toNat % 64 = c.toNat := by
      omega
    obtain ⟨low, high, hlead, hsecond⟩ := lead_three (by omega) h3 (by omega)
    refine ⟨pos + 1 + 1 + 1, ?_⟩
    rw [if_neg h1, if_neg h2, if_pos h3, List.cons_append, List.cons_append,
      List.singleton_append, decodeFrom_first hlead, decodeFrom_middle hsecond,
      decodeFrom_last (tail_bounds _), tail_bits, tail_bits, hchar hbits]
  · have hbits : ((c.toNat / 262144 * 64 + c.toNat / 4096 % 64) * 64 + c.toNat / 64 % 64) * 64 +
        c.toNat % 64 = c.toNat := by omega
    obtain ⟨low, high, hlead, hsecond⟩ := lead_four (v := c.toNat) (by omega) (by omega)
    refine ⟨pos + 1 + 1 + 1 + 1, ?_⟩
    rw [if_neg h1, if_neg h2, if_neg h3, List.cons_append, List.cons_append, List.cons_append,
      List.singleton_append, decodeFrom_first hlead, decodeFrom_middle hsecond,
      decodeFrom_middle (tail_bounds _), decodeFrom_last (tail_bounds _), tail_bits, tail_bits,
      tail_bits, hchar hbits]

theorem decodeFrom_encode (pos : Nat) (done s : List Char) :
    decodeFrom pos none done (encode s) = .ok (done.reverse ++ s) := by
  induction s generalizing pos done with
  | nil => rw [List.append_nil]; rfl
  | cons c s ih =>
    obtain ⟨next, h⟩ := decodeFrom_encodeChar pos done c (encode s)
    rw [encode, List.flatMap_cons]
    rw [← encode, h, ih, List.reverse_cons, List.append_assoc]
    rfl

/-- **Decoding undoes encoding**, for every text. -/
theorem decode_encode (s : List Char) : decode (encode s) = .ok s :=
  decodeFrom_encode 0 [] s

end JsonPaths.Text.Utf8
