/-
JsonPaths/Proofs/Json/Writer.lean

Which values have a text.

A whole number with too many digits has none, and neither has a value with such a number
in it; every other value has one, in every layout (`write_eq_none_iff`).  A value is shown
exactly if it can be written (`shown_eq_none_iff`).
-/
import Mathlib.Algebra.Group.Nat.Defs
import JsonPaths.Json.Writer
import JsonPaths.Value.Shown
import JsonPaths.Proofs.Value.Contains

namespace JsonPaths

/-! ### Numbers that can be written -/

theorem Text.intText?_eq_some_iff {n : Int} {s : List Char} :
    Text.intText? n = some s ↔
      (Nat.toDigits 10 n.natAbs).length ≤ Text.digitLimit ∧ Text.intChars n = s := by
  rw [Text.intText?]
  split
  · next h => exact iff_of_false nofun fun hs => absurd hs.1 (Nat.not_le.2 h)
  · next h => simp [Nat.not_lt.1 h]

/-- The least number that has too many digits. -/
theorem Text.digitLimit_lt_length :
    Text.digitLimit < (Nat.toDigits 10 (10 ^ Text.digitLimit)).length := by
  have hlength := (Nat.length_toDigits_le_iff (b := 10) (k := Text.digitLimit)
    (n := 10 ^ Text.digitLimit) (by decide) (by decide)).not
  exact Nat.not_le.1 (hlength.2 (Nat.lt_irrefl _))

theorem Text.intText?_of_lt {n : Nat} (h : Text.digitLimit < (Nat.toDigits 10 n).length) :
    Text.intText? n = none := by
  rw [Text.intText?, Int.natAbs_natCast]
  exact if_pos h

theorem Text.intText?_overlong : Text.intText? (10 ^ Text.digitLimit : Nat) = none :=
  intText?_of_lt digitLimit_lt_length

namespace Value

variable {μ : Type}

/-- Every whole number in the value is short enough to be written. -/
def WithinDigits (v : Value μ) : Prop :=
  ∀ k n, v.Contains k (.int n) → (Nat.toDigits 10 n.natAbs).length ≤ Text.digitLimit

theorem WithinDigits.of_contains {v w : Value μ} {k : Nat} (h : v.WithinDigits)
    (hc : v.Contains k w) : w.WithinDigits :=
  fun _ n hn => h _ n (hc.trans hn)

theorem withinDigits_int_iff {n : Int} : (int n : Value μ).WithinDigits ↔
    (Nat.toDigits 10 n.natAbs).length ≤ Text.digitLimit := by
  constructor
  · intro h
    exact h 0 n (.here _)
  · intro h k m hm
    cases hm
    exact h

theorem withinDigits_natCast_iff {n : Nat} : (int n : Value μ).WithinDigits ↔
    (Nat.toDigits 10 n).length ≤ Text.digitLimit := by
  rw [withinDigits_int_iff, Int.natAbs_natCast]

theorem withinDigits_of_atom {v : Value μ} (h : v.mark? = none) (hv : ∀ n, v ≠ int n) :
    v.WithinDigits := by
  intro k n hn
  cases hn with
  | here => exact absurd rfl (hv n)
  | item | member => cases h

theorem withinDigits_array_iff {m : μ} {items : List (Value μ)} :
    (array m items).WithinDigits ↔ ∀ v ∈ items, v.WithinDigits := by
  constructor
  · intro h v hv
    exact h.of_contains (.item hv (.here v))
  · intro h k n hn
    cases hn with
    | item hv hn => exact h _ hv _ n hn

theorem withinDigits_object_iff {m : μ} {ms : List (String × Value μ)} :
    (object m ms).WithinDigits ↔ ∀ p ∈ ms, p.2.WithinDigits := by
  constructor
  · intro h p hp
    exact h.of_contains (.member hp (.here p.2))
  · intro h k n hn
    cases hn with
    | member hv hn => exact h _ hv _ n hn

/-- The least whole number that has too many digits to be written. -/
def overlong : Value μ := .int (10 ^ Text.digitLimit : Nat)

theorem not_withinDigits_overlong : ¬(overlong : Value μ).WithinDigits :=
  fun h => Nat.not_le.2 Text.digitLimit_lt_length (withinDigits_natCast_iff.1 h)

end Value

namespace Json

variable {l : Layout} {depth : Nat} {s : List Char}

/-! ### What arrays and objects are written as -/

theorem writeItems_cons_eq_some_iff {v w : Json} {vs : List Json} :
    writeItems l depth (v :: w :: vs) = some s ↔
      ∃ a b, writeAt l depth v = some a ∧ writeItems l depth (w :: vs) = some b ∧
        a ++ (l.comma ++ l.lineBreak depth ++ b) = s := by
  rw [writeItems.eq_3 _ _ _ _ (List.cons_ne_nil w vs)]
  simp [Option.bind_eq_some_iff]

theorem writeMembers_singleton_eq_some_iff {k : String} {v : Json} :
    writeMembers l depth [(k, v)] = some s ↔
      ∃ a, writeAt l depth v = some a ∧ stringText k ++ (l.colon ++ a) = s := by
  simp [writeMembers, Option.bind_eq_some_iff]

theorem writeMembers_cons_eq_some_iff {k : String} {v : Json} {p : String × Json}
    {ms : List (String × Json)} :
    writeMembers l depth ((k, v) :: p :: ms) = some s ↔
      ∃ a b, writeAt l depth v = some a ∧ writeMembers l depth (p :: ms) = some b ∧
        stringText k ++ (l.colon ++ a ++ (l.comma ++ l.lineBreak depth ++ b)) = s := by
  rw [writeMembers.eq_3 _ _ _ _ _ (List.cons_ne_nil p ms)]
  simp [Option.bind_eq_some_iff]

theorem writeAt_array_eq_some_iff {m : Unit} {v : Json} {vs : List Json} :
    writeAt l depth (.array m (v :: vs)) = some s ↔
      ∃ a, writeItems l (depth + 1) (v :: vs) = some a ∧
        '[' :: (l.lineBreak (depth + 1) ++ a ++ l.lineBreak depth ++ [']']) = s := by
  simp [writeAt, Option.bind_eq_some_iff]

theorem writeAt_object_eq_some_iff {m : Unit} {p : String × Json} {ms : List (String × Json)} :
    writeAt l depth (.object m (p :: ms)) = some s ↔
      ∃ a, writeMembers l (depth + 1) (p :: ms) = some a ∧
        '\x7b' :: (l.lineBreak (depth + 1) ++ a ++ l.lineBreak depth ++ ['\x7d']) = s := by
  simp [writeAt, Option.bind_eq_some_iff]

/-! ### Which values have a text -/

theorem exists_writeItems_iff {items : List Json} :
    (∃ s, writeItems l depth items = some s) ↔
      ∀ v ∈ items, ∃ s, writeAt l depth v = some s := by
  induction items with
  | nil => simp [writeItems]
  | cons v vs ih =>
    cases vs with
    | nil => simp [writeItems]
    | cons w vs =>
      rw [List.forall_mem_cons, ← ih]
      simp [writeItems_cons_eq_some_iff]

theorem exists_writeMembers_iff {ms : List (String × Json)} :
    (∃ s, writeMembers l depth ms = some s) ↔
      ∀ p ∈ ms, ∃ s, writeAt l depth p.2 = some s := by
  induction ms with
  | nil => simp [writeMembers]
  | cons p ms ih =>
    obtain ⟨k, v⟩ := p
    cases ms with
    | nil => simp [writeMembers_singleton_eq_some_iff]
    | cons q ms =>
      rw [List.forall_mem_cons, ← ih]
      simp [writeMembers_cons_eq_some_iff]

/-- A value has a text if its whole numbers have, by induction on the value. -/
theorem exists_writeAt_iff (l : Layout) (depth : Nat) (v : Json) :
    (∃ s, writeAt l depth v = some s) ↔ v.WithinDigits := by
  induction v using Value.ind generalizing depth with
  | null => exact iff_of_true ⟨_, by rw [writeAt]⟩ (Value.withinDigits_of_atom rfl (by simp))
  | bool b => exact iff_of_true ⟨_, by rw [writeAt]⟩ (Value.withinDigits_of_atom rfl (by simp))
  | int n => simp [writeAt, Text.intText?_eq_some_iff, Value.withinDigits_int_iff]
  | double x => exact iff_of_true ⟨_, by rw [writeAt]⟩ (Value.withinDigits_of_atom rfl (by simp))
  | string s => exact iff_of_true ⟨_, by rw [writeAt]⟩ (Value.withinDigits_of_atom rfl (by simp))
  | array m items ih =>
    rw [Value.withinDigits_array_iff]
    cases items with
    | nil => simp [writeAt]
    | cons v vs =>
      have hitems : (∃ s, writeItems l (depth + 1) (v :: vs) = some s) ↔
          ∀ w ∈ v :: vs, w.WithinDigits :=
        exists_writeItems_iff.trans (forall₂_congr fun w hw => ih w hw (depth + 1))
      rw [← hitems]
      simp [writeAt_array_eq_some_iff]
  | object m ms ih =>
    rw [Value.withinDigits_object_iff]
    cases ms with
    | nil => simp [writeAt]
    | cons p ms =>
      have hmembers : (∃ s, writeMembers l (depth + 1) (p :: ms) = some s) ↔
          ∀ q ∈ p :: ms, q.2.WithinDigits :=
        exists_writeMembers_iff.trans (forall₂_congr fun q hq => ih q hq (depth + 1))
      rw [← hmembers]
      simp [writeAt_object_eq_some_iff]

theorem write_eq_some_iff {v : Json} {t : String} :
    write l v = some t ↔ writeAt l 0 v = some t.toList := by
  rw [write, Option.map_eq_some_iff]
  constructor
  · rintro ⟨s, hs, rfl⟩
    rwa [String.toList_ofList]
  · exact fun h => ⟨_, h, String.ofList_toList⟩

theorem exists_write_iff (l : Layout) (v : Json) :
    (∃ t, write l v = some t) ↔ v.WithinDigits := by
  rw [← exists_writeAt_iff l 0 v]
  simp [write]

/-- **A value has no text exactly if a whole number in it has too many digits**, whatever
the layout. -/
theorem write_eq_none_iff (l : Layout) (v : Json) : write l v = none ↔ ¬v.WithinDigits := by
  rw [← exists_write_iff l v, ← Option.ne_none_iff_exists', not_not]

end Json

/-! ### Values as messages show them -/

namespace Value

variable {μ : Type}

theorem exists_shownItems_iff {items : List (Value μ)} :
    (∃ s, shownItems items = some s) ↔ ∀ v ∈ items, ∃ s, v.shownChars = some s := by
  induction items with
  | nil => simp [shownItems]
  | cons v vs ih =>
    cases vs with
    | nil => simp [shownItems]
    | cons w vs =>
      rw [List.forall_mem_cons, ← ih, shownItems.eq_3 _ _ (List.cons_ne_nil w vs)]
      simp [Option.bind_eq_some_iff]

theorem exists_shownMembers_iff {ms : List (String × Value μ)} :
    (∃ s, shownMembers ms = some s) ↔ ∀ p ∈ ms, ∃ s, p.2.shownChars = some s := by
  induction ms with
  | nil => simp [shownMembers]
  | cons p ms ih =>
    cases ms with
    | nil => simp [shownMembers, Option.bind_eq_some_iff]
    | cons q ms =>
      rw [List.forall_mem_cons, ← ih, shownMembers.eq_3 _ _ _ (List.cons_ne_nil q ms)]
      simp [Option.bind_eq_some_iff]

/-- A value is shown if its whole numbers can be written, by induction on the value. -/
theorem exists_shownChars_iff (v : Value μ) : (∃ s, v.shownChars = some s) ↔ v.WithinDigits := by
  induction v using Value.ind with
  | null => exact iff_of_true ⟨_, by rw [shownChars]⟩ (withinDigits_of_atom rfl nofun)
  | bool b => exact iff_of_true ⟨_, by rw [shownChars]⟩ (withinDigits_of_atom rfl nofun)
  | int n => simp [shownChars, Text.intText?_eq_some_iff, withinDigits_int_iff]
  | double x => exact iff_of_true ⟨_, by rw [shownChars]⟩ (withinDigits_of_atom rfl nofun)
  | string s => exact iff_of_true ⟨_, by rw [shownChars]⟩ (withinDigits_of_atom rfl nofun)
  | array m items ih =>
    have hitems := exists_shownItems_iff.trans (forall₂_congr ih)
    rw [withinDigits_array_iff, ← hitems]
    simp [shownChars, Option.bind_eq_some_iff]
  | object m ms ih =>
    have hmembers := exists_shownMembers_iff.trans (forall₂_congr ih)
    rw [withinDigits_object_iff, ← hmembers]
    simp [shownChars, Option.bind_eq_some_iff]

theorem exists_shown_iff (v : Value μ) : (∃ s, v.shown = some s) ↔ v.WithinDigits := by
  rw [← exists_shownChars_iff v]
  simp [shown]

/-- **A value is shown exactly if it can be written.** -/
theorem shown_eq_none_iff (v : Value μ) : v.shown = none ↔ ¬v.WithinDigits := by
  rw [← exists_shown_iff v, ← Option.ne_none_iff_exists', not_not]

end Value

end JsonPaths
