/-
JsonPaths/Proofs/Log/Template.lean

Templates that insert texts.

A template of texts without a percent sign, each with a plain placeholder behind it, fits
as many arguments as it has placeholders, and its message is the texts with the arguments
behind them (`message_inserting`).  A percent sign in an argument has no meaning.
-/
import Mathlib.Data.List.Basic
import JsonPaths.Log.Template

namespace JsonPaths.Log.Template

/-! ### Filling in -/

theorem fill_nil : fill [] [] = some [] := by
  rw [fill.eq_def]
  rfl

theorem fill_cons {c : Char} (h : c ≠ '%') (args : List String) (r : List Char) :
    fill args (c :: r) = (fill args r).map (c :: ·) := by
  rw [fill.eq_def]
  split
  · next e => cases e
  · next e => exact absurd (List.cons.inj e).1 h
  · next e => exact absurd (List.cons.inj e).1 h
  · next e =>
    obtain ⟨rfl, rfl⟩ := List.cons.inj e
    rfl

theorem fill_append {t : List Char} (h : '%' ∉ t) (args : List String) (r : List Char) :
    fill args (t ++ r) = (fill args r).map (t ++ ·) := by
  induction t with
  | nil => exact (Option.map_id' (x := fill args r)).symm
  | cons c t ih =>
    obtain ⟨hc, ht⟩ := List.ne_and_not_mem_of_not_mem_cons h
    rw [List.cons_append, fill_cons hc.symm, ih ht, Option.map_map]
    rfl

/-- A plain placeholder inserts its argument as it is. -/
theorem fill_placeholder (a : String) (args : List String) (r : List Char) :
    fill (a :: args) ('%' :: 's' :: r) = (fill args r).map (a.toList ++ ·) := by
  have hread : readPlaceholder ('s' :: r) = some (⟨false, 0, none, 's'⟩, r) := rfl
  have hpad : ∀ t, pad ⟨false, 0, none, 's'⟩ t = t := by
    intro t
    rw [pad, Nat.zero_sub]
    rfl
  rw [fill.eq_def]
  split
  · next e => cases e
  · next e => cases e
  · next e =>
    obtain rfl := (List.cons.inj e).2
    split
    · next h e =>
      obtain ⟨rfl, rfl⟩ := List.cons.inj e
      obtain ⟨rfl, rfl⟩ := Prod.mk.inj (Option.some.inj (hread.symm.trans h))
      show (fill args r).map (pad _ a.toList ++ ·) = _
      rw [hpad]
    · next h => exact (h _ _ _ _ hread rfl).elim
  · next hne e => exact absurd (List.cons.inj e).1.symm hne

/-! ### Texts and placeholders by turns -/

/-- The template of texts, each with a plain placeholder behind it. -/
def inserting (parts : List (List Char × String)) : List Char :=
  parts.flatMap fun p => p.1 ++ ['%', 's']

theorem fill_inserting {parts : List (List Char × String)} (h : ∀ p ∈ parts, '%' ∉ p.1) :
    fill (parts.map Prod.snd) (inserting parts) =
      some (parts.flatMap fun p => p.1 ++ p.2.toList) := by
  induction parts with
  | nil => exact fill_nil
  | cons p parts ih =>
    obtain ⟨hp, hparts⟩ := List.forall_mem_cons.1 h
    rw [inserting, List.flatMap_cons, List.map_cons, List.append_assoc, fill_append hp]
    show (fill (p.2 :: parts.map Prod.snd) ('%' :: 's' :: inserting parts)).map _ = _
    rw [fill_placeholder, ih hparts]
    simp

/-- **A template of texts and plain placeholders** has the message that it looks like. -/
theorem message_inserting (parts : List (List Char × String)) (hne : parts ≠ [])
    (h : ∀ p ∈ parts, '%' ∉ p.1) :
    message (inserting parts) (parts.map Prod.snd) =
      some (parts.flatMap fun p => p.1 ++ p.2.toList) := by
  have hargs : (parts.map Prod.snd).isEmpty = false := by
    rw [List.isEmpty_map, List.isEmpty_eq_false_iff]
    exact hne
  rw [message, hargs, if_neg Bool.false_ne_true, fill_inserting h]

end JsonPaths.Log.Template
