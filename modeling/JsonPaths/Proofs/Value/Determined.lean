/-
JsonPaths/Proofs/Value/Determined.lean

The leaf index determines the value.

The positions of the leaves show the kind of every container, the steps to its children
and, in the order in which they come, the order of the children.  So a value is found
again from its leaves: in order they give the value back (`eq_of_leaves_eq`), and in any
order they give it up to the order of the members of objects
(`reordered_of_mem_leaves`).
-/
import JsonPaths.Proofs.Value.Splice

namespace JsonPaths

namespace Value

/-! ### What the leaves show of a value -/

section Leaves

variable {μ : Type} {v x : Value μ} {s : Step}

/-- There is a leaf in every value. -/
theorem exists_mem_leaves (v : Value μ) : ∃ l, l ∈ v.leaves := by
  induction v using ind_children with
  | h v ih =>
    by_cases hv : v.IsLeaf
    · exact ⟨([], v), by rw [leaves_of_isLeaf hv]; exact List.mem_singleton_self _⟩
    · obtain ⟨c, hc⟩ := List.exists_mem_of_ne_nil _ (mt children_eq_nil.1 hv)
      obtain ⟨l, hl⟩ := ih c hc
      refine ⟨(c.1 :: l.1, l.2), ?_⟩
      rw [leaves_of_children hv]
      exact List.mem_flatMap.2 ⟨c, hc, mem_under.2 ⟨l.1, rfl, hl⟩⟩

theorem mem_leaves_child (hd : v.Distinct) (h : v.child? s = some x) {p : List Step}
    {w : Value μ} : (s :: p, w) ∈ v.leaves ↔ (p, w) ∈ x.leaves := by
  rw [mem_leaves hd, mem_leaves (hd.of_child? h), at?_cons, h, Option.bind_some]

/-- There is a child under a step exactly if a leaf is. -/
theorem isSome_child?_iff (hd : v.Distinct) :
    (v.child? s).isSome = true ↔ ∃ p w, (s :: p, w) ∈ v.leaves := by
  constructor
  · intro h
    obtain ⟨x, hx⟩ := Option.isSome_iff_exists.1 h
    obtain ⟨l, hl⟩ := exists_mem_leaves x
    exact ⟨l.1, l.2, (mem_leaves_child hd hx).2 hl⟩
  · rintro ⟨p, w, h⟩
    obtain ⟨x, hx, -⟩ := at?_cons_eq_some.1 ((mem_leaves hd).1 h).1
    exact Option.isSome_of_mem hx

theorem isSome_child?_congr {a b : Value μ} (ha : a.Distinct) (hb : b.Distinct)
    (h : ∀ l, l ∈ a.leaves ↔ l ∈ b.leaves) (s : Step) :
    (a.child? s).isSome = true ↔ (b.child? s).isSome = true := by
  rw [isSome_child?_iff ha, isSome_child?_iff hb]
  exact exists₂_congr fun p w => h (s :: p, w)

/-- A leaf is the only one of its kind that is listed at the root. -/
theorem eq_of_isLeaf {a b : Value μ} (hb : b.Distinct) (h : ∀ l, l ∈ a.leaves ↔ l ∈ b.leaves)
    (ha : a.IsLeaf) : b = a := by
  have hmem : ([], a) ∈ b.leaves := by
    rw [← h, leaves_of_isLeaf ha]
    exact List.mem_singleton_self _
  exact Option.some.inj ((mem_leaves hb).1 hmem).1

end Leaves

/-! ### Leaves in any order -/

/-- Two values that are the same but for the order of the members of objects. -/
inductive Reordered : Json → Json → Prop
  | leaf {v : Json} : v.IsLeaf → Reordered v v
  | array {items items' : List Json} : items.length = items'.length →
      (∀ (i : Nat) v w, items[i]? = some v → items'[i]? = some w → Reordered v w) →
      Reordered (.array () items) (.array () items')
  | object {ms ms' : List (String × Json)} : (Assoc.keys ms).Perm (Assoc.keys ms') →
      (∀ k v w, (k, v) ∈ ms → (k, w) ∈ ms' → Reordered v w) →
      Reordered (.object () ms) (.object () ms')

namespace Reordered

variable {a b : Json}

theorem symm (h : Reordered a b) : Reordered b a := by
  induction h with
  | leaf hv => exact .leaf hv
  | array hl _ ih => exact .array hl.symm fun i v w hv hw => ih i w v hw hv
  | object hk _ ih => exact .object hk.symm fun k v w hv hw => ih k w v hw hv

/-- A leaf has no members to reorder. -/
theorem eq_of_isLeaf (h : Reordered a b) (ha : a.IsLeaf) : a = b := by
  cases h with
  | leaf _ => rfl
  | @array items items' hlength _ =>
    obtain rfl : items = [] := ha
    obtain rfl := List.length_eq_zero_iff.1 hlength.symm
    rfl
  | @object ms ms' hkeys _ =>
    obtain rfl : ms = [] := ha
    obtain rfl : ms' = [] := List.map_eq_nil_iff.1 (List.nil_perm.1 hkeys)
    rfl

/-- A step leads to the same child on both sides, up to the order of its members. -/
theorem exists_child? (h : Reordered a b) (hb : b.Distinct) {s : Step} {x : Json}
    (hx : a.child? s = some x) : ∃ y, b.child? s = some y ∧ Reordered x y := by
  cases h with
  | leaf ha =>
    have hmem := mem_children_of_child? hx
    rw [children_eq_nil.2 ha] at hmem
    exact absurd hmem List.not_mem_nil
  | @array items items' hlength hitems =>
    obtain ⟨i, rfl, hi⟩ := child?_array_eq_some.1 hx
    have hlt := (List.getElem?_eq_some_iff.1 hi).1
    have hi' := List.getElem?_eq_getElem (hlength ▸ hlt)
    exact ⟨_, hi', hitems i x _ hi hi'⟩
  | @object ms ms' hkeys hmembers =>
    obtain ⟨k, rfl, hk⟩ := child?_object_eq_some.1 hx
    have hmem : (k, x) ∈ ms := Assoc.mem_of_lookup hk
    obtain ⟨⟨k', y⟩, hm', hk'⟩ := List.mem_map.1 (hkeys.subset (List.mem_map_of_mem hmem))
    obtain rfl : k' = k := hk'
    exact ⟨y, Assoc.lookup_of_mem (distinct_object_iff.1 hb).1 hm', hmembers k' x y hmem hm'⟩

/-- Reordering moves no leaf to another position: by induction on the position, which
leads through corresponding children. -/
theorem mem_leaves_of_mem (h : Reordered a b) (ha : a.Distinct) (hb : b.Distinct)
    {p : List Step} {w : Json} (hl : (p, w) ∈ a.leaves) : (p, w) ∈ b.leaves := by
  induction p generalizing a b with
  | nil =>
    obtain ⟨hat, hw⟩ := (mem_leaves ha).1 hl
    obtain rfl : a = w := Option.some.inj hat
    exact h.eq_of_isLeaf hw ▸ hl
  | cons s p ih =>
    obtain ⟨x, hx, -⟩ := at?_cons_eq_some.1 ((mem_leaves ha).1 hl).1
    obtain ⟨y, hy, hxy⟩ := h.exists_child? hb hx
    exact (mem_leaves_child hb hy).2
      (ih hxy (ha.of_child? hx) (hb.of_child? hy) ((mem_leaves_child ha hx).1 hl))

end Reordered

theorem length_eq_of_isSome_child? {items items' : List Json}
    (h : ∀ s, ((array () items).child? s).isSome = true ↔
      ((array () items').child? s).isSome = true) : items.length = items'.length := by
  have hlt : ∀ i, i < items.length ↔ i < items'.length := by
    intro i
    have hi := h (.index i)
    rwa [child?, child?, isSome_getElem?, isSome_getElem?] at hi
  exact Nat.le_antisymm (Nat.not_lt.1 fun hl => Nat.lt_irrefl _ ((hlt _).1 hl))
    (Nat.not_lt.1 fun hl => Nat.lt_irrefl _ ((hlt _).2 hl))

theorem perm_keys_of_isSome_child? {ms ms' : List (String × Json)}
    (hn : (Assoc.keys ms).Nodup) (hn' : (Assoc.keys ms').Nodup)
    (h : ∀ s, ((object () ms).child? s).isSome = true ↔
      ((object () ms').child? s).isSome = true) :
    (Assoc.keys ms).Perm (Assoc.keys ms') := by
  refine (List.perm_ext_iff_of_nodup hn hn').2 fun k => ?_
  rw [← Assoc.isSome_lookup_iff, ← Assoc.isSome_lookup_iff]
  exact h (.field k)

/-- **The leaves in any order give the value up to the order of members.**  By induction
on the tree: a step leads to a child exactly if there is a leaf below it. -/
theorem reordered_of_mem_leaves {a b : Json} (ha : a.Distinct) (hb : b.Distinct)
    (h : ∀ l, l ∈ a.leaves ↔ l ∈ b.leaves) : Reordered a b := by
  induction a using ind_children generalizing b with
  | h a ih =>
    by_cases hla : a.IsLeaf
    · rw [eq_of_isLeaf hb h hla]
      exact .leaf hla
    by_cases hlb : b.IsLeaf
    · rw [eq_of_isLeaf ha (fun l => (h l).symm) hlb] at hla
      exact absurd hlb hla
    have hsteps := isSome_child?_congr ha hb h
    have hchild : ∀ s v w, a.child? s = some v → b.child? s = some w → Reordered v w := by
      intro s v w hv hw
      refine ih (s, v) (mem_children_of_child? hv) (ha.of_child? hv) (hb.of_child? hw) ?_
      rintro ⟨p, u⟩
      rw [← mem_leaves_child ha hv, ← mem_leaves_child hb hw]
      exact h (s :: p, u)
    -- an index leads into an array and a name into an object
    cases a with
    | array m items =>
      cases b with
      | array m' items' =>
        refine .array (length_eq_of_isSome_child? hsteps) fun i v w hv hw => ?_
        exact hchild (.index i) v w hv hw
      | object m' ms' =>
        obtain ⟨x, xs, rfl⟩ := List.exists_cons_of_ne_nil (show items ≠ [] from hla)
        exact absurd ((hsteps (.index 0)).1 rfl) (by simp [child?])
      | _ => exact absurd trivial hlb
    | object m ms =>
      cases b with
      | array m' items' =>
        obtain ⟨x, xs, rfl⟩ := List.exists_cons_of_ne_nil (show items' ≠ [] from hlb)
        exact absurd ((hsteps (.index 0)).2 rfl) (by simp [child?])
      | object m' ms' =>
        have hn := (distinct_object_iff.1 ha).1
        have hn' := (distinct_object_iff.1 hb).1
        refine .object (perm_keys_of_isSome_child? hn hn' hsteps) fun k v w hv hw => ?_
        exact hchild (.field k) v w (Assoc.lookup_of_mem hn hv) (Assoc.lookup_of_mem hn' hw)
      | _ => exact absurd trivial hlb
    | _ => exact absurd trivial hla

/-! ### Leaves in order -/

/-- What is found under a step starts with it. -/
theorem head_under {s : Step} {v : Json} {l : List Step × Json} (h : l ∈ under s v.leaves) :
    l.1.head? = some s := by
  obtain ⟨p, hp, -⟩ := mem_under.1 h
  rw [hp]
  rfl

theorem head_flatMap_under {s : Step} {cs : List (Step × Json)} (h : s ∉ cs.map Prod.fst) :
    ∀ l ∈ (cs.flatMap fun c => under c.1 c.2.leaves).head?, (l.1.head? == some s) = false := by
  intro l hl
  obtain ⟨c, hc, hlc⟩ := List.mem_flatMap.1 (List.mem_of_mem_head? hl)
  rw [head_under hlc]
  refine beq_eq_false_iff_ne.2 fun heq => h ?_
  exact Option.some.inj heq ▸ List.mem_map_of_mem hc

theorem under_ne_nil (s : Step) (v : Json) : under s v.leaves ≠ [] := by
  obtain ⟨l, hl⟩ := exists_mem_leaves v
  exact fun h => List.ne_nil_of_mem hl (List.map_eq_nil_iff.1 h)

theorem under_injective (s : Step) :
    Function.Injective (under s : List (List Step × Json) → List (List Step × Json)) := by
  refine List.map_injective_iff.2 fun x y hxy => ?_
  obtain ⟨hp, hw⟩ := Prod.mk.inj hxy
  exact Prod.ext (List.cons.inj hp).2 hw

/-- The first leaf shows the step to the first child. -/
theorem step_eq_of_under_append {s s' : Step} {v w : Json} {r r' : List (List Step × Json)}
    (h : under s v.leaves ++ r = under s' w.leaves ++ r') : s = s' := by
  obtain ⟨l, ls, hl⟩ := List.exists_cons_of_ne_nil (under_ne_nil s v)
  obtain ⟨m, ms, hm⟩ := List.exists_cons_of_ne_nil (under_ne_nil s' w)
  have hs := head_under (hl ▸ List.mem_cons_self : l ∈ under s v.leaves)
  have hs' := head_under (hm ▸ List.mem_cons_self : m ∈ under s' w.leaves)
  rw [hl, hm] at h
  rw [(List.cons.inj h).1] at hs
  exact Option.some.inj (hs.symm.trans hs')

/-- The children are found again from their leaves, if each of them is from its own.  The
leaves of the first child go as far as their first step stays the same. -/
theorem eq_of_flatMap_under {cs ds : List (Step × Json)} (hc : (cs.map Prod.fst).Nodup)
    (hd : (ds.map Prod.fst).Nodup)
    (ih : ∀ c ∈ cs, ∀ d ∈ ds, c.2.leaves = d.2.leaves → c.2 = d.2)
    (h : (cs.flatMap fun c => under c.1 c.2.leaves) = ds.flatMap fun d => under d.1 d.2.leaves) :
    cs = ds := by
  induction cs generalizing ds with
  | nil =>
    cases ds with
    | nil => rfl
    | cons d ds =>
      have hnil := List.append_eq_nil_iff.1 (h.symm.trans List.flatMap_nil)
      exact absurd hnil.1 (under_ne_nil d.1 d.2)
  | cons c cs ihc =>
    cases ds with
    | nil =>
      have hnil := List.append_eq_nil_iff.1 (h.trans List.flatMap_nil)
      exact absurd hnil.1 (under_ne_nil c.1 c.2)
    | cons d ds =>
      rw [List.flatMap_cons, List.flatMap_cons] at h
      have hstep := step_eq_of_under_append h
      obtain ⟨hcn, hcs⟩ := List.nodup_cons.1 hc
      obtain ⟨hdn, hds⟩ := List.nodup_cons.1 hd
      -- no later child is under the step of the first one
      obtain ⟨hfirst, htail⟩ := Text.cut_inj (p := fun l => l.1.head? == some c.1)
        (fun l hl => beq_iff_eq.2 (head_under hl))
        (fun l hl => beq_iff_eq.2 (hstep ▸ head_under hl)) (head_flatMap_under hcn)
        (head_flatMap_under (hstep ▸ hdn)) h
      rw [hstep] at hfirst
      have hvalue := ih c List.mem_cons_self d List.mem_cons_self (under_injective d.1 hfirst)
      rw [ihc hcs hds (fun x hx y hy => ih x (List.mem_cons_of_mem _ hx) y
        (List.mem_cons_of_mem _ hy)) htail, Prod.ext hstep hvalue]

theorem kind_eq_of_children {a b : Json} (ha : ¬a.IsLeaf) (h : a.children = b.children) :
    a.kind = b.kind := by
  have hb : ¬b.IsLeaf := by rwa [← children_eq_nil, ← h, children_eq_nil]
  obtain ⟨c, hc⟩ := List.exists_mem_of_ne_nil _ (mt children_eq_nil.1 ha)
  have hc' : c ∈ b.children := h ▸ hc
  cases a with
  | array m items =>
    cases b with
    | array m' items' => rfl
    | object m' ms' =>
      obtain ⟨i, hi, -⟩ := mem_children_array.1 hc
      obtain ⟨k, hk, -⟩ := mem_children_object.1 hc'
      rw [hi] at hk
      cases hk
    | _ => exact absurd trivial hb
  | object m ms =>
    cases b with
    | array m' items' =>
      obtain ⟨k, hk, -⟩ := mem_children_object.1 hc
      obtain ⟨i, hi, -⟩ := mem_children_array.1 hc'
      rw [hi] at hk
      cases hk
    | object m' ms' => rfl
    | _ => exact absurd trivial hb
  | _ => exact absurd trivial ha

/-- **The leaves in order give the value back.** -/
theorem eq_of_leaves_eq {a b : Json} (ha : a.Distinct) (hb : b.Distinct)
    (h : a.leaves = b.leaves) : a = b := by
  have hmem : ∀ l, l ∈ a.leaves ↔ l ∈ b.leaves := fun l => h ▸ Iff.rfl
  induction a using ind_children generalizing b with
  | h a ih =>
    by_cases hla : a.IsLeaf
    · exact (eq_of_isLeaf hb hmem hla).symm
    by_cases hlb : b.IsLeaf
    · exact eq_of_isLeaf ha (fun l => (hmem l).symm) hlb
    have hchildren : a.children = b.children := by
      rw [leaves_of_children hla, leaves_of_children hlb] at h
      refine eq_of_flatMap_under (nodup_steps ha) (nodup_steps hb) (fun c hc d hd hl => ?_) h
      have hdc := (distinct_iff_children.1 ha).2 c hc
      exact ih c hc hdc ((distinct_iff_children.1 hb).2 d hd) hl fun l => hl ▸ Iff.rfl
    exact Json.eq_of_children (kind_eq_of_children hla hchildren) hla hchildren

/-! ### The leaf index -/

/-- A named position has an entry in the index exactly if it is one of a leaf. -/
theorem mem_leafIndex_render {a w : Json} {p : List Step} (ha : a.Distinct) (hea : a.Expressible)
    (hp : ∀ s ∈ p, s.Named) : (Path.render p, w) ∈ a.leafIndex ↔ (p, w) ∈ a.leaves := by
  rw [leafIndex_eq_map ha hea, List.mem_map]
  constructor
  · rintro ⟨⟨q, u⟩, hl, e⟩
    obtain ⟨hq, rfl⟩ := Prod.mk.inj e
    have hn := named_of_at? hea (at?_of_mem_leaves ha hl).1
    rwa [← Path.render_inj hn hp hq]
  · intro h
    exact ⟨(p, w), h, rfl⟩

theorem named_of_mem_leaves {a : Json} {l : List Step × Json} (ha : a.Distinct)
    (hea : a.Expressible) (h : l ∈ a.leaves) : ∀ s ∈ l.1, s.Named :=
  named_of_at? hea (at?_of_mem_leaves ha h).1

theorem leaves_eq_of_leafIndex_eq {a b : Json} (ha : a.Distinct) (hea : a.Expressible)
    (hb : b.Distinct) (heb : b.Expressible) (h : a.leafIndex = b.leafIndex) :
    a.leaves = b.leaves := by
  rw [leafIndex_eq_map ha hea, leafIndex_eq_map hb heb] at h
  have hlength : a.leaves.length = b.leaves.length := by simpa using congrArg List.length h
  refine List.ext_getElem hlength fun i hi hi' => ?_
  have hmap : i < (a.leaves.map fun l => (Path.render l.1, l.2)).length := by simpa using hi
  have hi'' := List.getElem_of_eq h hmap
  rw [List.getElem_map, List.getElem_map] at hi''
  obtain ⟨hp, hw⟩ := Prod.mk.inj hi''
  exact Prod.ext (Path.render_inj (named_of_mem_leaves ha hea (List.getElem_mem hi))
    (named_of_mem_leaves hb heb (List.getElem_mem hi')) hp) hw

theorem mem_leaves_of_mem_leafIndex {a b : Json} (ha : a.Distinct) (hea : a.Expressible)
    (hb : b.Distinct) (heb : b.Expressible) (h : ∀ e ∈ a.leafIndex, e ∈ b.leafIndex)
    {l : List Step × Json} (hl : l ∈ a.leaves) : l ∈ b.leaves := by
  have hn := named_of_mem_leaves ha hea hl
  exact (mem_leafIndex_render hb heb hn).1 (h _ ((mem_leafIndex_render ha hea hn).2 hl))

/-- **The leaf index determines the value.**  Two values whose keys are names of the path
grammar have the same leaf index exactly if they are the same, the order of members
included, and the same entries in any order exactly if they are the same up to the order
of members. -/
theorem leafIndex_determines {a b : Json} (ha : a.Distinct) (hea : a.Expressible)
    (hb : b.Distinct) (heb : b.Expressible) :
    (a.leafIndex = b.leafIndex ↔ a = b) ∧
      ((∀ e, e ∈ a.leafIndex ↔ e ∈ b.leafIndex) ↔ Reordered a b) := by
  constructor
  · exact ⟨fun h => eq_of_leaves_eq ha hb (leaves_eq_of_leafIndex_eq ha hea hb heb h),
      congrArg leafIndex⟩
  · constructor
    · intro h
      refine reordered_of_mem_leaves ha hb fun l => ⟨?_, ?_⟩
      · exact mem_leaves_of_mem_leafIndex ha hea hb heb fun e => (h e).1
      · exact mem_leaves_of_mem_leafIndex hb heb ha hea fun e => (h e).2
    · intro h e
      rw [leafIndex_eq_map ha hea, leafIndex_eq_map hb heb, List.mem_map, List.mem_map]
      exact exists_congr fun l => and_congr_left fun _ =>
        ⟨h.mem_leaves_of_mem ha hb, h.symm.mem_leaves_of_mem hb ha⟩

/-- An object with an array and an empty one. -/
def ordered : Json := .object () [("k", .array () [.null]), ("l", .array () [])]

/-- The same members in the other order. -/
def swapped : Json := .object () [("l", .array () []), ("k", .array () [.null])]

theorem distinct_ordered : ordered.Distinct ∧ swapped.Distinct := by
  have hnull : (null : Json).Distinct := distinct_of_mark?_eq_none rfl
  constructor <;>
    simp [ordered, swapped, distinct_object_iff, distinct_array_iff, Assoc.keys, hnull]

theorem expressible_ordered : ordered.Expressible ∧ swapped.Expressible := by
  have hnull : (null : Json).Expressible := expressible_of_mark?_eq_none rfl
  have hk : Path.IsName "k".toList := ⟨by simp, by simp⟩
  have hl : Path.IsName "l".toList := ⟨by simp, by simp⟩
  constructor <;>
    simp only [ordered, swapped, expressible_object_iff, expressible_array_iff,
      List.forall_mem_cons, List.not_mem_nil, false_implies, implies_true, and_self, hnull, hk, hl]

/-- The order of two members shows in the order of the entries only. -/
theorem leafIndex_determines_swapped :
    (ordered.Distinct ∧ swapped.Distinct) ∧ (ordered.Expressible ∧ swapped.Expressible) ∧
      ordered.leafIndex = [(".k[0]", .null), (".l", .array () [])] ∧
      ordered.leafIndex ≠ swapped.leafIndex ∧ Reordered ordered swapped := by
  obtain ⟨hd, hd'⟩ := distinct_ordered
  obtain ⟨he, he'⟩ := expressible_ordered
  obtain ⟨horder, hentries⟩ := leafIndex_determines hd he hd' he'
  have hleft : ordered.leafIndex = [(".k[0]", .null), (".l", .array () [])] :=
    leafIndex_eq_map hd he
  have hright : swapped.leafIndex = [(".l", .array () []), (".k[0]", .null)] :=
    leafIndex_eq_map hd' he'
  refine ⟨distinct_ordered, expressible_ordered, hleft, fun h => ?_, hentries.1 fun e => ?_⟩
  · have hkeys := congrArg (fun v : Json => v.children.map Prod.fst) (horder.1 h)
    exact absurd hkeys (by decide)
  · rw [hleft, hright]
    simp only [List.mem_cons, List.not_mem_nil, or_false]
    exact or_comm

end Value

end JsonPaths
