/-
JsonPaths/Proofs/Value/Contains.lean

The parts of a value tree and their marks.

`v.Contains k w` says that `w` is a part of `v` and that `k` members lead down
to it; items of arrays do not count.  The count is the number of field steps of
every path that leads there, which is what tells the containers that an
assignment writes to from those that it only passes through.

A tree is `Consistent` when a mark stands for one container: parts with the
same mark are the same value and lie below the same number of members.  A tree
whose marks are all different is consistent (`consistent_of_nodup`), and fresh
marks are all different (`marks_withMarks`).
-/
import JsonPaths.Value.Basic
import Mathlib.Data.List.Basic
import Mathlib.Data.List.Nodup
import Mathlib.Data.List.Pairwise

namespace JsonPaths.Value

variable {μ ν : Type}

/-! ### Parts -/

/-- The mark of a container. -/
def mark? : Value μ → Option μ
  | .array m _ | .object m _ => some m
  | _ => none

/-- `v.Contains k w`: `w` is a part of `v`, and `k` members lead to it. -/
inductive Contains : Value μ → Nat → Value μ → Prop
  | here (v : Value μ) : Contains v 0 v
  | item {m : μ} {items : List (Value μ)} {v w : Value μ} {k : Nat} :
      v ∈ items → Contains v k w → Contains (.array m items) k w
  | member {m : μ} {members : List (String × Value μ)} {name : String} {v w : Value μ}
      {k : Nat} :
      (name, v) ∈ members → Contains v k w → Contains (.object m members) (k + 1) w

theorem Contains.trans {u v w : Value μ} {j k : Nat} (h : u.Contains j v)
    (h' : v.Contains k w) : u.Contains (j + k) w := by
  induction h with
  | here v => simpa using h'
  | item hv _ ih => exact .item hv (ih h')
  | member hv _ ih =>
    rw [Nat.add_right_comm]
    exact .member hv (ih h')

theorem Contains.item_of {u v : Value μ} {m : μ} {items : List (Value μ)} {k : Nat}
    (h : u.Contains k (.array m items)) (hv : v ∈ items) : u.Contains k v :=
  h.trans (.item hv (.here v))

theorem Contains.member_of {u v : Value μ} {m : μ} {members : List (String × Value μ)}
    {name : String} {k : Nat} (h : u.Contains k (.object m members))
    (hv : (name, v) ∈ members) : u.Contains (k + 1) v :=
  h.trans (.member hv (.here v))

/-- A part that is met inside itself is met there without a step: trees have no
cycles. -/
theorem Contains.sizeOf_le {v w : Value μ} {k : Nat} (h : v.Contains k w) :
    sizeOf w ≤ sizeOf v := by
  induction h with
  | here v => exact Nat.le_refl _
  | item hv _ ih =>
    have := List.sizeOf_lt_of_mem hv
    simp only [array.sizeOf_spec]
    omega
  | member hv _ ih =>
    have := List.sizeOf_lt_of_mem hv
    simp only [object.sizeOf_spec, Prod.mk.sizeOf_spec] at this ⊢
    omega

/-! ### Properties of all objects -/

/-- Every object in the value has members with `P`. -/
def Objects (P : List (String × Value μ) → Prop) (v : Value μ) : Prop :=
  ∀ k m ms, v.Contains k (.object m ms) → P ms

section Objects

variable {P : List (String × Value μ) → Prop}

theorem Objects.of_contains {v w : Value μ} {k : Nat} (h : v.Objects P)
    (hc : v.Contains k w) : w.Objects P := by
  intro _ m ms hw
  exact h _ m ms (hc.trans hw)

theorem objects_of_mark?_eq_none {v : Value μ} (h : v.mark? = none) : v.Objects P := by
  intro k m ms hc
  cases hc <;> simp [mark?] at h

theorem objects_array_iff {m : μ} {items : List (Value μ)} :
    (array m items).Objects P ↔ ∀ v ∈ items, v.Objects P := by
  constructor
  · intro h v hv
    exact h.of_contains (.item hv (.here v))
  · intro h k m' ms hc
    cases hc with
    | item hv hc => exact h _ hv k m' ms hc

theorem objects_object_iff {m : μ} {ms : List (String × Value μ)} :
    (object m ms).Objects P ↔ P ms ∧ ∀ p ∈ ms, p.2.Objects P := by
  constructor
  · intro h
    exact ⟨h 0 m ms (.here _), fun p hp => h.of_contains (.member hp (.here _))⟩
  · rintro ⟨hP, h⟩ k m' ms' hc
    cases hc with
    | here => exact hP
    | member hv hc => exact h _ hv _ m' ms' hc

end Objects

/-! ### Marks in order -/

mutual

/-- The marks of the containers of a tree, in the order of its text. -/
def marks : Value μ → List μ
  | .array m items => m :: marksOfItems items
  | .object m members => m :: marksOfMembers members
  | _ => []

/-- The marks in the items of an array. -/
def marksOfItems : List (Value μ) → List μ
  | [] => []
  | v :: vs => v.marks ++ marksOfItems vs

/-- The marks in the members of an object. -/
def marksOfMembers : List (String × Value μ) → List μ
  | [] => []
  | (_, v) :: ms => v.marks ++ marksOfMembers ms

end

theorem marksOfItems_eq_flatMap (l : List (Value μ)) : marksOfItems l = l.flatMap marks := by
  induction l with
  | nil => rfl
  | cons v vs ih =>
    rw [List.flatMap_cons]
    exact congrArg (v.marks ++ ·) ih

theorem marksOfMembers_eq_flatMap (l : List (String × Value μ)) :
    marksOfMembers l = l.flatMap fun p => p.2.marks := by
  induction l with
  | nil => rfl
  | cons p ms ih =>
    rw [List.flatMap_cons]
    exact congrArg (p.2.marks ++ ·) ih

theorem marks_array (m : μ) (items : List (Value μ)) :
    (array m items).marks = m :: items.flatMap marks :=
  congrArg (m :: ·) (marksOfItems_eq_flatMap items)

theorem marks_object (m : μ) (ms : List (String × Value μ)) :
    (object m ms).marks = m :: ms.flatMap fun p => p.2.marks :=
  congrArg (m :: ·) (marksOfMembers_eq_flatMap ms)

theorem marks_subset_of_mem_items {m : μ} {items : List (Value μ)} {v : Value μ}
    (h : v ∈ items) : v.marks ⊆ (array m items).marks := by
  intro x hx
  rw [marks_array]
  exact List.mem_cons_of_mem _ (List.mem_flatMap.2 ⟨v, h, hx⟩)

theorem marks_subset_of_mem_members {m : μ} {members : List (String × Value μ)}
    {name : String} {v : Value μ} (h : (name, v) ∈ members) :
    v.marks ⊆ (object m members).marks := by
  intro x hx
  rw [marks_object]
  exact List.mem_cons_of_mem _ (List.mem_flatMap.2 ⟨(name, v), h, hx⟩)

theorem Contains.marks_subset {v w : Value μ} {k : Nat} (h : v.Contains k w) :
    w.marks ⊆ v.marks := by
  induction h with
  | here v => exact List.Subset.refl _
  | item hv _ ih => exact List.Subset.trans ih (marks_subset_of_mem_items hv)
  | member hv _ ih => exact List.Subset.trans ih (marks_subset_of_mem_members hv)

theorem mem_marks_of_mark? {v : Value μ} {m : μ} (h : v.mark? = some m) : m ∈ v.marks := by
  cases v <;> simp_all [mark?, marks]

theorem Contains.mem_marks {v w : Value μ} {k : Nat} {m : μ} (h : v.Contains k w)
    (hm : w.mark? = some m) : m ∈ v.marks :=
  h.marks_subset (mem_marks_of_mark? hm)

/-- Every mark of a tree is the mark of one of its parts. -/
theorem exists_contains_of_mem_marks (v : Value μ) {m : μ} (h : m ∈ v.marks) :
    ∃ k w, v.Contains k w ∧ w.mark? = some m := by
  induction v using Value.ind with
  | null | bool | int | double | string => simp [marks] at h
  | array m' items ih =>
    rw [marks_array, List.mem_cons, List.mem_flatMap] at h
    rcases h with rfl | ⟨v, hv, h⟩
    · exact ⟨0, _, .here _, rfl⟩
    · obtain ⟨k, w, hw, hm⟩ := ih v hv h
      exact ⟨k, w, .item hv hw, hm⟩
  | object m' ms ih =>
    rw [marks_object, List.mem_cons, List.mem_flatMap] at h
    rcases h with rfl | ⟨p, hp, h⟩
    · exact ⟨0, _, .here _, rfl⟩
    · obtain ⟨k, w, hw, hm⟩ := ih p hp h
      exact ⟨k + 1, w, .member (show (p.1, p.2) ∈ ms from hp) hw, hm⟩

/-! ### Consistent trees -/

/-- A mark stands for one container: parts with one mark are one value, and the
same number of members leads to them. -/
def Consistent (v : Value μ) : Prop :=
  ∀ ⦃j k : Nat⦄ ⦃a b : Value μ⦄ ⦃m : μ⦄, v.Contains j a → v.Contains k b →
    a.mark? = some m → b.mark? = some m → a = b ∧ j = k

/-- A container does not occur inside itself. -/
theorem Consistent.notMem_items {v w : Value μ} {m : μ} {items : List (Value μ)} {j k : Nat}
    (hc : v.Consistent) (h : v.Contains j (.array m items)) (hw : w ∈ items)
    {items' : List (Value μ)} (h' : w.Contains k (.array m items')) : False := by
  obtain ⟨e, -⟩ := hc h ((h.item_of hw).trans h') rfl rfl
  have hle : sizeOf (array m items) ≤ sizeOf w := e ▸ h'.sizeOf_le
  have hlt := List.sizeOf_lt_of_mem hw
  simp only [array.sizeOf_spec] at hle
  omega

/-- A mark is in one item only if no mark is used twice. -/
theorem eq_of_getElem?_flatMap {α : Type} {f : α → List μ} {l : List α}
    (h : (l.flatMap f).Nodup) {i j : Nat} {a b : α} (ha : l[i]? = some a)
    (hb : l[j]? = some b) {m : μ} (hma : m ∈ f a) (hmb : m ∈ f b) : i = j := by
  obtain ⟨hi, rfl⟩ := List.getElem?_eq_some_iff.1 ha
  obtain ⟨hj, rfl⟩ := List.getElem?_eq_some_iff.1 hb
  have hd := List.pairwise_iff_getElem.1 (List.nodup_flatMap.1 h).2
  rcases Nat.lt_trichotomy i j with hlt | heq | hgt
  · exact absurd hmb (hd i j hi hj hlt hma)
  · exact heq
  · exact absurd hma (hd j i hj hi hgt hmb)

theorem eq_of_mem_flatMap {α : Type} {f : α → List μ} {l : List α}
    (h : (l.flatMap f).Nodup) {a b : α} (ha : a ∈ l) (hb : b ∈ l) {m : μ} (hma : m ∈ f a)
    (hmb : m ∈ f b) : a = b := by
  obtain ⟨i, ha⟩ := List.mem_iff_getElem?.1 ha
  obtain ⟨j, hb⟩ := List.mem_iff_getElem?.1 hb
  obtain rfl := eq_of_getElem?_flatMap h ha hb hma hmb
  exact Option.some.inj (ha.symm.trans hb)

/-- A tree in which no mark is used twice is consistent. -/
theorem consistent_of_nodup {v : Value μ} (h : v.marks.Nodup) : v.Consistent := by
  induction v using Value.ind with
  | null | bool | int | double | string =>
    intro j k a b m ha hb hma
    cases ha
    simp [mark?] at hma
  | array m' items ih =>
    rw [marks_array, List.nodup_cons] at h
    obtain ⟨hm', h⟩ := h
    -- the mark of the array is in none of its items
    have hin : ∀ {x k c}, x ∈ items → x.Contains k c → c.mark? ≠ some m' := by
      intro x k c hx hc e
      exact hm' (List.mem_flatMap.2 ⟨x, hx, hc.mem_marks e⟩)
    intro j k a b m ha hb hma hmb
    cases ha with
    | here =>
      cases hb with
      | here => exact ⟨rfl, rfl⟩
      | item hy hb => exact absurd (hmb.trans hma.symm) (hin hy hb)
    | item hx ha =>
      cases hb with
      | here => exact absurd (hma.trans hmb.symm) (hin hx ha)
      | item hy hb =>
        -- parts with one mark are in one item
        obtain rfl := eq_of_mem_flatMap h hx hy (ha.mem_marks hma) (hb.mem_marks hmb)
        exact ih _ hx ((List.nodup_flatMap.1 h).1 _ hx) ha hb hma hmb
  | object m' ms ih =>
    rw [marks_object, List.nodup_cons] at h
    obtain ⟨hm', h⟩ := h
    have hin : ∀ {p k c}, p ∈ ms → p.2.Contains k c → c.mark? ≠ some m' := by
      intro p k c hp hc e
      exact hm' (List.mem_flatMap.2 ⟨p, hp, hc.mem_marks e⟩)
    intro j k a b m ha hb hma hmb
    cases ha with
    | here =>
      cases hb with
      | here => exact ⟨rfl, rfl⟩
      | member hy hb => exact absurd (hmb.trans hma.symm) (hin hy hb)
    | member hx ha =>
      cases hb with
      | here => exact absurd (hma.trans hmb.symm) (hin hx ha)
      | member hy hb =>
        have e := eq_of_mem_flatMap h hx hy (ha.mem_marks hma) (hb.mem_marks hmb)
        obtain ⟨rfl, rfl⟩ := Prod.mk.inj e
        obtain ⟨rfl, rfl⟩ := ih _ hx ((List.nodup_flatMap.1 h).1 _ hx) ha hb hma hmb
        exact ⟨rfl, rfl⟩

/-! ### Fresh marks -/

/-- Fresh marks are consecutive numbers, one for every container. -/
theorem marks_withMarks (v : Value μ) (n : Nat) :
    (v.withMarks n).1.marks = List.range' n v.marks.length ∧
      (v.withMarks n).2 = n + v.marks.length := by
  induction v using Value.ind generalizing n with
  | null | bool | int | double | string => simp [withMarks, marks]
  | array m items ih =>
    -- each item takes its marks from where the item before it stopped
    have key : ∀ n, (markItems n items).1.flatMap marks
        = List.range' n (items.flatMap marks).length ∧
        (markItems n items).2 = n + (items.flatMap marks).length := by
      induction items with
      | nil => simp [markItems]
      | cons v vs ihs =>
        intro n
        obtain ⟨hv, hn⟩ := ih v (by simp) n
        obtain ⟨hvs, hn'⟩ := ihs (fun w hw => ih w (by simp [hw])) (v.withMarks n).2
        rw [hn] at hvs hn'
        simp only [markItems, List.flatMap_cons, List.length_append, hn, hv, hvs, hn']
        exact ⟨by rw [List.range'_append_1], by omega⟩
    obtain ⟨h, hn⟩ := key (n + 1)
    simp only [withMarks, marks, marksOfItems_eq_flatMap, h, hn, List.length_cons]
    exact ⟨by rw [List.range'_succ], by omega⟩
  | object m ms ih =>
    have key : ∀ n, ((markMembers n ms).1.flatMap fun p => p.2.marks)
        = List.range' n (ms.flatMap fun p => p.2.marks).length ∧
        (markMembers n ms).2 = n + (ms.flatMap fun p => p.2.marks).length := by
      induction ms with
      | nil => simp [markMembers]
      | cons p ms ihs =>
        intro n
        obtain ⟨k, v⟩ := p
        obtain ⟨hv, hn⟩ := ih (k, v) (by simp) n
        obtain ⟨hvs, hn'⟩ := ihs (fun w hw => ih w (by simp [hw])) (v.withMarks n).2
        rw [hn] at hvs hn'
        simp only [markMembers, List.flatMap_cons, List.length_append, hn, hv, hvs, hn']
        exact ⟨by rw [List.range'_append_1], by omega⟩
    obtain ⟨h, hn⟩ := key (n + 1)
    simp only [withMarks, marks, marksOfMembers_eq_flatMap, h, hn, List.length_cons]
    exact ⟨by rw [List.range'_succ], by omega⟩

theorem nodup_marks_withMarks (v : Value μ) (n : Nat) : (v.withMarks n).1.marks.Nodup := by
  rw [(marks_withMarks v n).1]
  exact List.nodup_range'

theorem consistent_withMarks (v : Value μ) (n : Nat) : (v.withMarks n).1.Consistent :=
  consistent_of_nodup (nodup_marks_withMarks v n)

theorem mem_marks_withMarks {v : Value μ} {n m : Nat} :
    m ∈ (v.withMarks n).1.marks ↔ n ≤ m ∧ m < (v.withMarks n).2 := by
  obtain ⟨h, hn⟩ := marks_withMarks v n
  rw [h, hn, List.mem_range'_1]

end JsonPaths.Value
