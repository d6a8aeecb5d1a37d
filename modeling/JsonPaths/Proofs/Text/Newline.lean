/-
JsonPaths/Proofs/Text/Newline.lean

One kind of line end.

Characters that are no part of a line end stay where they are (`unifyNewlines_eq_cons`), so
a word without such a part is at the start of a text before exactly if it is after
(`unifyNewlines_starts_word`), and what is cut off a text up to the first other character is
the same (`span_unifyNewlines`).
-/
import JsonPaths.Text.Newline
import Mathlib.Data.List.TakeDrop

namespace JsonPaths.Text

/-- A character that is no part of a line end. -/
def Firm (c : Char) : Prop := c ≠ '\r' ∧ c ≠ '\n'

instance (c : Char) : Decidable (Firm c) := inferInstanceAs (Decidable (_ ∧ _))

/-- A word within which no line ends. -/
def Unbroken (w : List Char) : Prop := ∀ c ∈ w, Firm c

-- the bounded quantifier is over the word, not over all characters
instance (w : List Char) : Decidable (Unbroken w) := List.decidableBAll Firm w

variable {c : Char} {s t w : List Char}

theorem unifyNewlines_cons (h : c ≠ '\r') (s : List Char) :
    unifyNewlines (c :: s) = c :: unifyNewlines s :=
  unifyNewlines.eq_3 c s (fun _ hr _ => h hr) h

theorem unifyNewlines_return (s : List Char) :
    ∃ r, (r = s ∨ s = '\n' :: r) ∧ unifyNewlines ('\r' :: s) = '\n' :: unifyNewlines r := by
  by_cases h : ∃ r, s = '\n' :: r
  · obtain ⟨r, rfl⟩ := h
    exact ⟨r, .inr rfl, unifyNewlines.eq_1 r⟩
  · exact ⟨s, .inl rfl, unifyNewlines.eq_2 s fun r hr => h ⟨r, hr⟩⟩

theorem unifyNewlines_eq_cons (hc : Firm c) :
    unifyNewlines s = c :: t ↔ ∃ r, s = c :: r ∧ unifyNewlines r = t := by
  cases s with
  | nil => simp [unifyNewlines]
  | cons d s =>
    by_cases hd : d = '\r'
    · obtain ⟨r, -, hr⟩ := unifyNewlines_return s
      rw [hd, hr]
      simp [hc.1.symm, hc.2.symm]
    · rw [unifyNewlines_cons hd]
      simp [and_assoc]

theorem unifyNewlines_eq_append (hw : Unbroken w) :
    unifyNewlines s = w ++ t ↔ ∃ r, s = w ++ r ∧ unifyNewlines r = t := by
  induction w generalizing s with
  | nil => simp
  | cons c w ih =>
    obtain ⟨hc, hw⟩ := List.forall_mem_cons.1 hw
    rw [List.cons_append, unifyNewlines_eq_cons hc]
    simp only [ih hw]
    constructor
    · rintro ⟨r, rfl, r', rfl, rfl⟩
      exact ⟨r', rfl, rfl⟩
    · rintro ⟨r, rfl, rfl⟩
      exact ⟨_, rfl, r, rfl, rfl⟩

theorem unifyNewlines_eq_nil : unifyNewlines s = [] ↔ s = [] := by
  cases s with
  | nil => exact iff_of_true rfl rfl
  | cons d s =>
    refine iff_of_false ?_ (List.cons_ne_nil d s)
    by_cases hd : d = '\r'
    · obtain ⟨r, -, hr⟩ := unifyNewlines_return s
      rw [hd, hr]
      exact List.cons_ne_nil _ _
    · rw [unifyNewlines_cons hd]
      exact List.cons_ne_nil _ _

/-- A text starts with a word in which no line ends before and after, or neither before nor
after. -/
theorem unifyNewlines_starts_word (hw : Unbroken w) (s : List Char) :
    (∃ r, s = w ++ r ∧ unifyNewlines s = w ++ unifyNewlines r) ∨
      (∀ r, s ≠ w ++ r) ∧ ∀ r, unifyNewlines s ≠ w ++ r := by
  by_cases h : ∃ r, s = w ++ r
  · obtain ⟨r, rfl⟩ := h
    exact .inl ⟨r, rfl, (unifyNewlines_eq_append hw).2 ⟨r, rfl, rfl⟩⟩
  · refine .inr ⟨fun r hr => h ⟨r, hr⟩, fun r hr => ?_⟩
    obtain ⟨r, hr, -⟩ := (unifyNewlines_eq_append hw).1 hr
    exact h ⟨r, hr⟩

theorem unifyNewlines_starts (hc : Firm c) (s : List Char) :
    (∃ r, s = c :: r ∧ unifyNewlines s = c :: unifyNewlines r) ∨
      (∀ r, s ≠ c :: r) ∧ ∀ r, unifyNewlines s ≠ c :: r :=
  unifyNewlines_starts_word (List.forall_mem_singleton.2 hc) s

theorem span_unifyNewlines {p : Char → Bool} (hp : ∀ c, p c = true → Firm c) (s : List Char) :
    (unifyNewlines s).span p = ((s.span p).1, unifyNewlines (s.span p).2) := by
  have hreturn : p '\r' = false := Bool.eq_false_iff.2 fun h => (hp _ h).1 rfl
  have hfeed : p '\n' = false := Bool.eq_false_iff.2 fun h => (hp _ h).2 rfl
  simp only [List.span_eq_takeWhile_dropWhile]
  induction s with
  | nil => rfl
  | cons c s ih =>
    by_cases hc : c = '\r'
    · obtain ⟨r, -, hr⟩ := unifyNewlines_return s
      simp [hc, hr, hreturn, hfeed]
    · obtain ⟨htake, hdrop⟩ := Prod.mk.inj ih
      rw [unifyNewlines_cons hc]
      cases hpc : p c with
      | true => simp [hpc, htake, hdrop]
      | false => simp [hpc, unifyNewlines_cons hc]

end JsonPaths.Text
