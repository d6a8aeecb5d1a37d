/-
JsonPaths/Proofs/Json/ReadString.lean

Strings read back.

The writer puts every character of a string in one of three forms: as it is, by a letter
after a backslash, or by its code.  The reader takes each form for the character
(`readString_escapeChar`), and so the characters between the quotes for the string
(`readString_stringText`).
-/
import JsonPaths.Json.Reader
import JsonPaths.Json.Writer

namespace JsonPaths.Json

variable {start done s r t : List Char} {c x : Char}

/-! ### One character -/

theorem readString_plain (hq : c ≠ '"') (hb : c ≠ '\\') (h : 32 ≤ c.toNat) :
    readString start done (c :: r) = readString start (c :: done) r := by
  rw [readString.eq_5 _ _ _ _ hq (fun hc => absurd hc hb) hb, if_neg (Nat.not_lt.2 h)]

theorem readString_escape (h : readEscape s = .ok (c, r)) :
    readString start done ('\\' :: s) = readString start (c :: done) r := by
  have hne : s ≠ [] := by
    rintro rfl
    cases h
  rw [readString.eq_4 _ _ _ hne]
  split
  · next he => cases he.symm.trans h
  · next he =>
    cases he.symm.trans h
    rfl

theorem readString_letter (hu : c ≠ 'u') (h : shortEscape? c = some x) :
    readString start done ('\\' :: c :: r) = readString start (x :: done) r := by
  refine readString_escape ?_
  unfold readEscape
  split
  · next hs => cases hs
  · next hs => exact absurd (List.cons.inj hs).1 hu
  · next hs =>
    cases hs
    rw [h]

/-- The code of a character below the space takes two digits. -/
theorem hex_four : ∀ n < 32,
    Text.hex 4 n = ['0', '0', (n / 16).digitChar, (n % 16).digitChar] ∧
      hexFour? '0' '0' (n / 16).digitChar (n % 16).digitChar = some n := by
  decide +kernel

theorem readEscape_code (h : c.toNat < 32) (ht : t ≠ []) :
    readEscape ('u' :: (Text.hex 4 c.toNat ++ t)) = .ok (c, t) := by
  obtain ⟨hhex, hfour⟩ := hex_four c.toNat h
  obtain ⟨y, u, rfl⟩ := List.exists_cons_of_ne_nil ht
  rw [hhex]
  show readEscape ('u' :: '0' :: '0' :: _ :: _ :: y :: u) = _
  unfold readEscape
  simp only [readCode, hfour]
  rw [if_neg (by omega), if_neg (by omega), Char.ofNat_toNat]

/-- **A character is read as it was written.**  A code needs a character after it, which
the quote at the end of the string is at the latest. -/
theorem readString_escapeChar (c : Char) (ht : t ≠ []) :
    readString start done (escapeChar c ++ t) = readString start (c :: done) t := by
  unfold escapeChar
  split
  · next h =>
    have hu : c ≠ 'u' := by rcases h with rfl | rfl <;> decide
    have hshort : shortEscape? c = some c := by rcases h with rfl | rfl <;> rfl
    exact readString_letter hu hshort
  next hquote =>
  obtain ⟨hq, hb⟩ := not_or.1 hquote
  split
  · next h =>
    rw [h]
    exact readString_letter (by decide) rfl
  split
  · next h =>
    rw [h]
    exact readString_letter (by decide) rfl
  split
  · next h =>
    rw [h]
    exact readString_letter (by decide) rfl
  split
  · next h =>
    rw [h]
    exact readString_letter (by decide) rfl
  split
  · next h =>
    rw [h]
    exact readString_letter (by decide) rfl
  split
  · next h => exact readString_escape (readEscape_code h ht)
  · next h => exact readString_plain hq hb (by omega)

/-! ### A string -/

theorem readString_flatMap (s done : List Char) :
    readString start done (s.flatMap escapeChar ++ '"' :: r) = .ok (done.reverse ++ s, r) := by
  induction s generalizing done with
  | nil => rw [List.flatMap_nil, List.nil_append, readString.eq_2, List.append_nil]
  | cons c s ih =>
    rw [List.flatMap_cons, List.append_assoc, readString_escapeChar c (by simp), ih,
      List.reverse_cons, List.append_assoc]
    rfl

/-- **A string reads back.** -/
theorem readString_stringText (s : String) :
    readString start [] (s.toList.flatMap escapeChar ++ '"' :: r) = .ok (s.toList, r) :=
  readString_flatMap s.toList []

theorem stringText_append (s : String) (r : List Char) :
    stringText s ++ r = '"' :: (s.toList.flatMap escapeChar ++ '"' :: r) := by
  simp [stringText]

end JsonPaths.Json
