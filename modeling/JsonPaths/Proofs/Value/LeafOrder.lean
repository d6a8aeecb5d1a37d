/-
JsonPaths/Proofs/Value/LeafOrder.lean

The leaves of a tree in depth-first order.

`v.leaves` lists the leaves of `v` with their positions, by recursion on the tree.
If the objects of `v` are maps, then these are the positions of `v` at which nothing
is below (`mem_leaves`), and they ascend in the order of the text of `v`
(`pairwise_leaves`), so that no position is listed twice.
-/
import JsonPaths.Value.Leaves
import JsonPaths.Proofs.Value.Position

namespace JsonPaths.Value

variable {μ : Type}

/-! ### Children -/

/-- Induction on a tree, with the hypothesis for every child. -/
theorem ind_children {motive : Value μ → Prop}
    (h : ∀ v, (∀ c ∈ v.children, motive c.2) → motive v) (v : Value μ) : motive v := by
  induction v using Value.ind with
  | null | bool | int | double | string => exact h _ (List.forall_mem_nil _)
  | array m items ih =>
    refine h _ fun c hc => ?_
    obtain ⟨i, hi, rfl⟩ := List.mem_mapIdx.1 hc
    exact ih _ (List.getElem_mem hi)
  | object m ms ih =>
    refine h _ fun c hc => ?_
    obtain ⟨p, hp, rfl⟩ := List.mem_map.1 hc
    exact ih p hp

theorem mem_children_array {m : μ} {items : List (Value μ)} {c : Step × Value μ} :
    c ∈ (array m items).children ↔ ∃ i, c.1 = .index i ∧ items[i]? = some c.2 := by
  show c ∈ items.mapIdx _ ↔ _
  rw [List.mem_mapIdx]
  constructor
  · rintro ⟨i, hi, rfl⟩
    exact ⟨i, rfl, List.getElem?_eq_getElem hi⟩
  · rintro ⟨i, hs, hi⟩
    obtain ⟨hi, e⟩ := List.getElem?_eq_some_iff.1 hi
    exact ⟨i, hi, Prod.ext hs.symm e⟩

theorem mem_children_object {m : μ} {ms : List (String × Value μ)} {c : Step × Value μ} :
    c ∈ (object m ms).children ↔ ∃ k, c.1 = .field k ∧ (k, c.2) ∈ ms := by
  show c ∈ ms.map _ ↔ _
  rw [List.mem_map]
  constructor
  · rintro ⟨p, hp, rfl⟩
    exact ⟨p.1, rfl, hp⟩
  · rintro ⟨k, hs, hk⟩
    exact ⟨_, hk, Prod.ext hs.symm rfl⟩

theorem mem_children_of_child? {v w : Value μ} {s : Step} (h : v.child? s = some w) :
    (s, w) ∈ v.children := by
  cases v with
  | array m items => exact mem_children_array.2 (child?_array_eq_some.1 h)
  | object m ms =>
    obtain ⟨k, hs, hk⟩ := child?_object_eq_some.1 h
    exact mem_children_object.2 ⟨k, hs, Assoc.mem_of_lookup hk⟩
  | _ => cases s <;> cases h

/-- The children of a tree whose objects are maps are what single steps lead to. -/
theorem mem_children {v w : Value μ} {s : Step} (hd : v.Distinct) :
    (s, w) ∈ v.children ↔ v.child? s = some w := by
  constructor
  · intro h
    cases v with
    | array m items => exact child?_array_eq_some.2 (mem_children_array.1 h)
    | object m ms =>
      obtain ⟨k, hs, hk⟩ := mem_children_object.1 h
      have hn := (distinct_object_iff.1 hd).1
      exact child?_object_eq_some.2 ⟨k, hs, Assoc.lookup_of_mem hn hk⟩
    | _ => cases h
  · exact mem_children_of_child?

theorem Distinct.of_child? {v w : Value μ} {s : Step} (hd : v.Distinct)
    (h : v.child? s = some w) : w.Distinct :=
  hd.of_contains (contains_of_child? h)

/-! ### Leaves -/

/-- A scalar or an empty container. -/
def IsLeaf : Value μ → Prop
  | .array _ items => items = []
  | .object _ members => members = []
  | _ => True

theorem children_eq_nil {v : Value μ} : v.children = [] ↔ v.IsLeaf := by
  cases v <;> simp [children, IsLeaf]

/-- What is found under a step, with the step in front. -/
def under (s : Step) (l : List (List Step × Value μ)) : List (List Step × Value μ) :=
  l.map fun c => (s :: c.1, c.2)

mutual

/-- The leaves of a tree with their positions, in the order of its text. -/
def leaves : Value μ → List (List Step × Value μ)
  | .array m [] => [([], .array m [])]
  | .array _ (v :: vs) => leavesOfItems 0 (v :: vs)
  | .object m [] => [([], .object m [])]
  | .object _ (p :: ps) => leavesOfMembers (p :: ps)
  | v => [([], v)]

/-- The leaves in the items of an array from the item `i` on. -/
def leavesOfItems (i : Nat) : List (Value μ) → List (List Step × Value μ)
  | [] => []
  | v :: vs => under (.index i) v.leaves ++ leavesOfItems (i + 1) vs

/-- The leaves in the members of an object. -/
def leavesOfMembers : List (String × Value μ) → List (List Step × Value μ)
  | [] => []
  | (k, v) :: ms => under (.field k) v.leaves ++ leavesOfMembers ms

end

theorem leavesOfItems_eq_flatMap (i : Nat) (l : List (Value μ)) :
    leavesOfItems i l =
      (l.mapIdx fun j v => (Step.index (i + j), v)).flatMap fun c => under c.1 c.2.leaves := by
  induction l generalizing i with
  | nil => rfl
  | cons v vs ih =>
    rw [leavesOfItems, ih, List.mapIdx_cons, List.flatMap_cons]
    simp only [Nat.add_zero, Nat.add_assoc, Nat.add_comm 1]

theorem leavesOfMembers_eq_flatMap (l : List (String × Value μ)) :
    leavesOfMembers l =
      (l.map fun p => (Step.field p.1, p.2)).flatMap fun c => under c.1 c.2.leaves := by
  induction l with
  | nil => rfl
  | cons p ms ih => exact congrArg (under (.field p.1) p.2.leaves ++ ·) ih

theorem leaves_of_isLeaf {v : Value μ} (h : v.IsLeaf) : v.leaves = [([], v)] := by
  cases v with
  | array m items =>
    obtain rfl : items = [] := h
    rfl
  | object m ms =>
    obtain rfl : ms = [] := h
    rfl
  | _ => rfl

/-- The leaves of a tree that is no leaf are those of its children, in order. -/
theorem leaves_of_children {v : Value μ} (h : ¬ v.IsLeaf) :
    v.leaves = v.children.flatMap fun c => under c.1 c.2.leaves := by
  cases v with
  | array m items =>
    cases items with
    | nil => exact absurd rfl h
    | cons x xs =>
      show leavesOfItems 0 (x :: xs) = _
      rw [leavesOfItems_eq_flatMap]
      simp only [Nat.zero_add]
      rfl
  | object m ms =>
    cases ms with
    | nil => exact absurd rfl h
    | cons p ps => exact leavesOfMembers_eq_flatMap (p :: ps)
  | _ => exact absurd trivial h

/-! ### Which positions are listed -/

theorem mem_under {s : Step} {l : List (List Step × Value μ)} {a : List Step × Value μ} :
    a ∈ under s l ↔ ∃ p, a.1 = s :: p ∧ (p, a.2) ∈ l := by
  rw [under, List.mem_map]
  constructor
  · rintro ⟨c, hc, rfl⟩
    exact ⟨c.1, rfl, hc⟩
  · rintro ⟨p, hp, h⟩
    exact ⟨_, h, Prod.ext hp.symm rfl⟩

theorem not_isLeaf_of_child? {v w : Value μ} {s : Step} (h : v.child? s = some w) :
    ¬ v.IsLeaf := by
  rw [← children_eq_nil]
  exact List.ne_nil_of_mem (mem_children_of_child? h)

/-- Every position of a leaf is listed. -/
theorem mem_leaves_of_at? {p : List Step} {v w : Value μ} (h : v.at? p = some w)
    (hw : w.IsLeaf) : (p, w) ∈ v.leaves := by
  induction p generalizing v with
  | nil =>
    obtain rfl := Option.some.inj h
    rw [leaves_of_isLeaf hw]
    exact List.mem_singleton_self _
  | cons s p ih =>
    obtain ⟨x, hx, h⟩ := at?_cons_eq_some.1 h
    rw [leaves_of_children (not_isLeaf_of_child? hx)]
    have hc := mem_children_of_child? hx
    exact List.mem_flatMap.2 ⟨_, hc, mem_under.2 ⟨p, rfl, ih h⟩⟩

/-- At every listed position there is the listed leaf. -/
theorem at?_of_mem_leaves {v : Value μ} (hd : v.Distinct) {p : List Step} {w : Value μ}
    (h : (p, w) ∈ v.leaves) : v.at? p = some w ∧ w.IsLeaf := by
  induction v using ind_children generalizing p with
  | h v ih =>
    by_cases hv : v.IsLeaf
    · rw [leaves_of_isLeaf hv] at h
      cases List.mem_singleton.1 h
      exact ⟨rfl, hv⟩
    · rw [leaves_of_children hv] at h
      obtain ⟨⟨s, x⟩, hc, h⟩ := List.mem_flatMap.1 h
      obtain ⟨q, rfl, hq⟩ := mem_under.1 h
      have hx := (mem_children hd).1 hc
      obtain ⟨hat, hw⟩ := ih _ hc (hd.of_child? hx) hq
      exact ⟨at?_cons_eq_some.2 ⟨x, hx, hat⟩, hw⟩

theorem mem_leaves {v : Value μ} (hd : v.Distinct) {p : List Step} {w : Value μ} :
    (p, w) ∈ v.leaves ↔ v.at? p = some w ∧ w.IsLeaf := by
  constructor
  · exact at?_of_mem_leaves hd
  · rintro ⟨h, hw⟩
    exact mem_leaves_of_at? h hw

/-! ### Their order -/

/-- `v.Precedes p q`: in the text of `v` what is at `p` ends before what is at `q`
starts. -/
inductive Precedes : Value μ → List Step → List Step → Prop
  | siblings {v : Value μ} {i j : Nat} {c d : Step × Value μ} {p q : List Step} :
      v.children[i]? = some c → v.children[j]? = some d → i < j →
      Precedes v (c.1 :: p) (d.1 :: q)
  | under {v : Value μ} {c : Step × Value μ} {p q : List Step} :
      c ∈ v.children → Precedes c.2 p q → Precedes v (c.1 :: p) (c.1 :: q)

theorem pairwise_leaves (v : Value μ) : v.leaves.Pairwise fun a b => v.Precedes a.1 b.1 := by
  induction v using ind_children with
  | h v ih =>
    by_cases hv : v.IsLeaf
    · rw [leaves_of_isLeaf hv]
      exact List.pairwise_singleton _ _
    · rw [leaves_of_children hv, List.pairwise_flatMap]
      constructor
      · intro c hc
        exact List.pairwise_map.2 ((ih c hc).imp fun h => .under hc h)
      · -- children are in the order of their places
        rw [List.pairwise_iff_getElem]
        intro i j hi hj hij a ha b hb
        obtain ⟨p, hp, -⟩ := mem_under.1 ha
        obtain ⟨q, hq, -⟩ := mem_under.1 hb
        rw [hp, hq]
        exact .siblings (List.getElem?_eq_getElem hi) (List.getElem?_eq_getElem hj) hij

/-- Different children of a tree whose objects are maps are under different steps. -/
theorem nodup_steps {v : Value μ} (hd : v.Distinct) : (v.children.map Prod.fst).Nodup := by
  cases v with
  | array m items =>
    rw [List.nodup_iff_getElem?_ne_getElem?]
    intro i j hij hj
    have hj' : j < items.length := by simpa [children] using hj
    have hi' : i < items.length := Nat.lt_trans hij hj'
    simp [children, hi', hj', Nat.ne_of_lt hij]
  | object m ms =>
    have hn := (distinct_object_iff.1 hd).1
    have e : (object m ms).children.map Prod.fst = (Assoc.keys ms).map Step.field := by
      simp [children, Assoc.keys]
    rw [e]
    exact hn.map fun a b h => Step.field.inj h
  | _ => exact List.nodup_nil

/-- Objects are maps all over a tree if the steps to its children are all different and
they are maps all over each child. -/
theorem distinct_iff_children {v : Value μ} :
    v.Distinct ↔ (v.children.map Prod.fst).Nodup ∧ ∀ c ∈ v.children, c.2.Distinct := by
  constructor
  · intro hd
    exact ⟨nodup_steps hd, fun c hc => hd.of_child? ((mem_children hd).1 hc)⟩
  · rintro ⟨hn, hc⟩
    cases v with
    | array m items =>
      refine distinct_array_iff.2 fun w hw => ?_
      obtain ⟨i, hi⟩ := List.mem_iff_getElem?.1 hw
      exact hc (.index i, w) (mem_children_array.2 ⟨i, rfl, hi⟩)
    | object m ms =>
      refine distinct_object_iff.2 ⟨?_, fun p hp => ?_⟩
      · have e : (object m ms).children.map Prod.fst = (Assoc.keys ms).map Step.field := by
          simp [children, Assoc.keys]
        rw [e] at hn
        exact hn.of_map _
      · exact hc (.field p.1, p.2) (mem_children_object.2 ⟨p.1, rfl, hp⟩)
    | _ => exact distinct_of_mark?_eq_none rfl

theorem Precedes.ne {v : Value μ} {p q : List Step} (h : v.Precedes p q) (hd : v.Distinct) :
    p ≠ q := by
  induction h with
  | @siblings v i j c d p q hi hj hij =>
    intro e
    have hn := nodup_steps hd
    rw [List.nodup_iff_getElem?_ne_getElem?] at hn
    have hj' := (List.getElem?_eq_some_iff.1 hj).1
    apply hn i j hij (by simpa using hj')
    rw [List.getElem?_map, List.getElem?_map, hi, hj]
    exact congrArg some (List.cons.inj e).1
  | under hc _ ih =>
    intro e
    have hx := (mem_children hd).1 hc
    exact ih (hd.of_child? hx) (List.cons.inj e).2

/-- No position is listed twice. -/
theorem nodup_leaves {v : Value μ} (hd : v.Distinct) : (v.leaves.map Prod.fst).Nodup :=
  List.pairwise_map.2 ((pairwise_leaves v).imp fun h => h.ne hd)

end JsonPaths.Value
