/-
JsonPaths/Proofs/Text/Pieces.lean

Cutting texts.

A text either has no separator or is what stands before its first one, the
separator, and the rest.  This is the case split of a reader that searches for a
character, and the recursion on the rest is its induction (`separated_ind`).  A reader
that takes characters as long as they have a property cuts the text at the first one
without it (`cut_append`).
-/
import JsonPaths.Text.Pieces

namespace JsonPaths.Text

variable {separator : Char}

/-- Induction on a text from one separator to the next. -/
theorem separated_ind {motive : List Char → Prop} (separator : Char)
    (last : ∀ s, separator ∉ s → motive s)
    (cons : ∀ s r, separator ∉ s → motive r → motive (s ++ separator :: r)) (s : List Char) :
    motive s := by
  by_cases h : separator ∈ s
  · obtain ⟨t, r, rfl, ht⟩ := List.eq_append_cons_of_mem h
    -- the rest is shorter by the separator at least
    have : r.length < (t ++ separator :: r).length := by
      rw [List.length_append, List.length_cons]
      omega
    exact cons t r ht (separated_ind separator last cons r)
  · exact last s h
termination_by s.length

/-- A text without a separator is its only piece. -/
theorem pieces_of_notMem {s : List Char} (h : separator ∉ s) : pieces separator s = [s] := by
  induction s with
  | nil => rfl
  | cons c s ih =>
    obtain ⟨hc, hs⟩ := not_or.1 (fun h' => h (List.mem_cons.2 h'))
    rw [pieces, if_neg (Ne.symm hc), ih hs]

/-- The first piece ends at the first separator. -/
theorem pieces_append {s : List Char} (h : separator ∉ s) (r : List Char) :
    pieces separator (s ++ separator :: r) = s :: pieces separator r := by
  induction s with
  | nil => rw [List.nil_append, pieces, if_pos rfl]
  | cons c s ih =>
    obtain ⟨hc, hs⟩ := not_or.1 (fun h' => h (List.mem_cons.2 h'))
    rw [List.cons_append, pieces, if_neg (Ne.symm hc), ih hs]

/-- A text is cut at its first separator in one way. -/
theorem separated_inj {s t r q : List Char} (hs : separator ∉ s) (ht : separator ∉ t)
    (h : s ++ separator :: r = t ++ separator :: q) : s = t ∧ r = q := by
  have hp := congrArg (pieces separator) h
  rw [pieces_append hs, pieces_append ht] at hp
  have hst : s = t := (List.cons.inj hp).1
  rw [hst] at h
  exact ⟨hst, (List.cons.inj (List.append_cancel_left h)).2⟩

section Cut

variable {α : Type} {p : α → Bool} {s t r q : List α}

/-- What is taken from a list with property `p` goes as far as `p` holds. -/
theorem cut_append (hs : ∀ c ∈ s, p c = true) (hr : ∀ c ∈ r.head?, p c = false) :
    (s ++ r).takeWhile p = s ∧ (s ++ r).dropWhile p = r := by
  rw [List.takeWhile_append_of_pos hs, List.dropWhile_append_of_pos hs]
  cases r with
  | nil => exact ⟨List.append_nil s, rfl⟩
  | cons c r =>
    have hc : p c = false := hr c rfl
    simp [hc]

/-- A list is cut at its first member without `p` in one way. -/
theorem cut_inj (hs : ∀ c ∈ s, p c = true) (ht : ∀ c ∈ t, p c = true)
    (hr : ∀ c ∈ r.head?, p c = false) (hq : ∀ c ∈ q.head?, p c = false)
    (h : s ++ r = t ++ q) : s = t ∧ r = q := by
  obtain ⟨hs', hr'⟩ := cut_append hs hr
  obtain ⟨ht', hq'⟩ := cut_append ht hq
  rw [h] at hs' hr'
  exact ⟨hs'.symm.trans ht', hr'.symm.trans hq'⟩

end Cut

end JsonPaths.Text
