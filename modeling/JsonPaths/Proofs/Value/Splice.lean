/-
JsonPaths/Proofs/Value/Splice.lean

Putting a value in the place of another.

Where a position is in a tree, putting a value there keeps the steps to the children
and their order (`children_put`).  So the leaves of the new value come, in their order,
to the place of the leaf that they replace (`leaves_put`), and the leaf index is spliced
(`leafIndex_put`).  Two positions of which none lies below the other can be put to in
either order (`put_comm`).
-/
import JsonPaths.Proofs.Value.Canonical
import JsonPaths.Proofs.Value.Put

namespace JsonPaths

/-! ### Children of the updated tree -/

theorem Path.below_singleton (s t : Step) (p : List Step) :
    Path.below t [s :: p] = if s = t then [p] else [] := by
  by_cases h : s = t <;> simp [Path.below, h]

namespace Json

variable {v x a : Json}

/-- Putting values where positions are keeps the steps to the children. -/
theorem children_putAll {P : List (List Step)} (h : [] ∉ P)
    (hs : ∀ s, [s] ∈ P → (x.child? s).isSome) :
    (putAll P v x).children = x.children.map fun c => (c.1, putAll (Path.below c.1 P) v c.2) := by
  cases x with
  | array m items =>
    rw [putAll_array h]
    exact List.ext_getElem (by simp [Value.children]) fun i _ _ => by simp [Value.children]
  | object m ms =>
    -- a member that is put to is there, with the new value already
    have hput : ∀ k ∈ Path.names P,
        (ms.map fun p => (p.1, putAll (Path.below (.field p.1) P) v p.2)).lookup k = some v := by
      intro k hk
      have hk := Path.mem_names.1 hk
      obtain ⟨y, hy⟩ := Option.isSome_iff_exists.1 (hs (.field k) hk)
      rw [Assoc.lookup_map_key fun k => putAll (Path.below (.field k) P) v]
      show (Value.child? (.field k) (.object m ms)).map _ = some v
      rw [hy, Option.map_some, putAll_of_mem (Path.mem_below.2 hk)]
    rw [putAll_object h, Assoc.putEach_eq_self hput]
    simp [Value.children, Function.comp_def]
  | _ => simp [putAll, h, Value.children]

theorem kind_putAll {P : List (List Step)} (h : [] ∉ P) : (putAll P v x).kind = x.kind := by
  cases x <;> simp [putAll, h, Value.kind]

theorem children_put {s : Step} {p : List Step} (h : (x.at? (s :: p)).isSome) :
    (putAll [s :: p] v x).children
      = x.children.map fun c => (c.1, if c.1 = s then putAll [p] v c.2 else c.2) := by
  have hs : ∀ t, [t] ∈ [s :: p] → (x.child? t).isSome := by
    intro t ht
    obtain ⟨rfl, -⟩ := List.cons.inj (List.mem_singleton.1 ht)
    obtain ⟨w, hw⟩ := Option.isSome_iff_exists.1 h
    obtain ⟨y, hy, -⟩ := Value.at?_cons_eq_some.1 hw
    exact Option.isSome_iff_exists.2 ⟨y, hy⟩
  rw [children_putAll (by simp) hs]
  refine List.map_congr_left fun c _ => ?_
  by_cases hc : c.1 = s
  · simp [Path.below_singleton, hc]
  · simp [Path.below_singleton, hc, Ne.symm hc]

/-- A container is its kind and its children. -/
theorem eq_of_children {y : Json} (hk : x.kind = y.kind) (hx : ¬x.IsLeaf)
    (h : x.children = y.children) : x = y := by
  cases x with
  | array m items =>
    cases y with
    | array m' items' =>
      have hitems := congrArg (List.map Prod.snd) h
      have hsnd : ∀ l : List Json, (l.mapIdx fun i v => (Step.index i, v)).map Prod.snd = l :=
        fun l => List.ext_getElem (by simp) fun i _ _ => by simp
      rw [Value.children, Value.children, hsnd, hsnd] at hitems
      rw [hitems]
    | _ => cases hk
  | object m ms =>
    cases y with
    | object m' ms' =>
      have hinj : Function.Injective fun p : String × Json => (Step.field p.1, p.2) := by
        intro p q hpq
        obtain ⟨hname, hvalue⟩ := Prod.mk.inj hpq
        exact Prod.ext (Step.field.inj hname) hvalue
      rw [List.map_injective_iff.2 hinj h]
    | _ => cases hk
  | _ => exact absurd trivial hx

/-- A child of the updated tree is one of the tree, or the one that is put into. -/
theorem mem_children_put {s : Step} {p : List Step} (hd : x.Distinct)
    (h : x.at? (s :: p) = some a) {c : Step × Json} (hput : c ∈ (putAll [s :: p] v x).children) :
    c ∈ x.children ∨ ∃ y, x.child? s = some y ∧ y.at? p = some a ∧ c = (s, putAll [p] v y) := by
  obtain ⟨y, hy, hp⟩ := Value.at?_cons_eq_some.1 h
  rw [children_put (Option.isSome_of_mem h)] at hput
  obtain ⟨c, hc, rfl⟩ := List.mem_map.1 hput
  by_cases hs : c.1 = s
  · have hcy := (Value.mem_children hd).1 hc
    rw [hs, hy] at hcy
    obtain rfl := Option.some.inj hcy
    exact .inr ⟨c.2, hs ▸ hy, hp, by rw [if_pos hs, hs]⟩
  · rw [if_neg hs]
    exact .inl hc

/-! ### What stays true of the updated tree -/

theorem distinct_put {q : List Step} (hq : x.at? q = some a) (hd : x.Distinct)
    (hv : v.Distinct) : (putAll [q] v x).Distinct := by
  induction q generalizing x with
  | nil => rwa [putAll_of_mem List.mem_cons_self]
  | cons s p ih =>
    obtain ⟨hn, hchildren⟩ := Value.distinct_iff_children.1 hd
    refine Value.distinct_iff_children.2 ⟨?_, fun c hc => ?_⟩
    · rw [children_put (Option.isSome_of_mem hq), List.map_map]
      exact hn
    · rcases mem_children_put hd hq hc with hc | ⟨y, hy, hp, rfl⟩
      · exact hchildren c hc
      · exact ih hp (hd.of_child? hy)

theorem expressible_put {q : List Step} (hq : x.at? q = some a) (hd : x.Distinct)
    (he : x.Expressible) (hv : v.Expressible) : (putAll [q] v x).Expressible := by
  induction q generalizing x with
  | nil => rwa [putAll_of_mem List.mem_cons_self]
  | cons s p ih =>
    refine Value.expressible_iff_children.2 fun c hc => ?_
    rcases mem_children_put hd hq hc with hc | ⟨y, hy, hp, rfl⟩
    · exact Value.expressible_iff_children.1 he c hc
    · have hye := he.of_contains (Value.contains_of_child? hy)
      exact ⟨Value.named_of_child? he hy, ih hp (hd.of_child? hy) hye⟩

/-! ### Leaves -/

/-- The leaves of `v` in the place of the entry of `q`, with `q` before their steps. -/
def graft (q : List Step) (v : Json) (l : List (List Step × Json)) : List (List Step × Json) :=
  l.flatMap fun e => if e.1 = q then v.leaves.map fun m => (q ++ m.1, m.2) else [e]

theorem graft_under (s : Step) (p : List Step) (l : List (List Step × Json)) :
    graft (s :: p) v (Value.under s l) = Value.under s (graft p v l) := by
  simp only [graft, Value.under, List.flatMap_map, List.map_flatMap, List.cons.injEq, true_and]
  refine List.flatMap_congr fun e _ => ?_
  by_cases he : e.1 = p
  · simp [he]
  · simp [he]

theorem graft_under_of_ne {s t : Step} (h : t ≠ s) (p : List Step)
    (l : List (List Step × Json)) : graft (s :: p) v (Value.under t l) = Value.under t l := by
  simp only [graft, Value.under, List.flatMap_map, List.cons.injEq, h, false_and, if_false]
  exact List.map_eq_flatMap.symm

/-- **The leaves of a value come to the place of the leaf that it replaces.** -/
theorem leaves_put {q : List Step} (hd : x.Distinct) (hq : x.at? q = some a) (ha : a.IsLeaf) :
    (putAll [q] v x).leaves = graft q v x.leaves := by
  induction q generalizing x with
  | nil =>
    obtain rfl := Option.some.inj hq
    rw [putAll_of_mem List.mem_cons_self, Value.leaves_of_isLeaf ha]
    simp [graft]
  | cons s p ih =>
    obtain ⟨y, hy, hp⟩ := Value.at?_cons_eq_some.1 hq
    have hx : ¬x.IsLeaf := Value.not_isLeaf_of_child? hy
    have hchildren := children_put (v := v) (Option.isSome_of_mem hq)
    have hput : ¬(putAll [s :: p] v x).IsLeaf := by
      rw [← Value.children_eq_nil] at hx ⊢
      rwa [hchildren, List.map_eq_nil_iff]
    -- the child on the way to the leaf is grafted into, and the others keep their leaves
    rw [Value.leaves_of_children hput, Value.leaves_of_children hx, hchildren, List.flatMap_map,
      graft, List.flatMap_assoc]
    refine List.flatMap_congr fun c hc => ?_
    show Value.under c.1 (if c.1 = s then putAll [p] v c.2 else c.2).leaves
      = graft (s :: p) v (Value.under c.1 c.2.leaves)
    by_cases hs : c.1 = s
    · have hcy := (Value.mem_children hd).1 hc
      rw [hs, hy] at hcy
      obtain rfl := Option.some.inj hcy
      rw [if_pos hs, hs, graft_under, ih (hd.of_child? hy) hp]
    · rw [if_neg hs, graft_under_of_ne hs]

/-! ### Two positions -/

/-- Below a leaf there is no other position. -/
theorem eq_of_prefix {q r : List Step} {b : Json} (hq : x.at? q = some a) (ha : a.IsLeaf)
    (hr : x.at? r = some b) (h : q <+: r) : q = r := by
  obtain ⟨t, rfl⟩ := h
  rw [Value.at?_append, hq, Option.bind_some] at hr
  cases t with
  | nil => rw [List.append_nil]
  | cons s t =>
    obtain ⟨y, hy, -⟩ := Value.at?_cons_eq_some.1 hr
    exact absurd ha (Value.not_isLeaf_of_child? hy)

/-- Where two positions are put to, each child has what the two steps say of it. -/
theorem children_put_put {s t : Step} {q r : List Step} {b w : Json}
    (hq : x.at? (s :: q) = some a) (hr : x.at? (t :: r) = some b) (hqr : ¬s :: q <+: t :: r)
    (hrq : ¬t :: r <+: s :: q) :
    (putAll [t :: r] w (putAll [s :: q] v x)).children = x.children.map fun c =>
      (c.1, if c.1 = t then putAll [r] w (if c.1 = s then putAll [q] v c.2 else c.2)
        else if c.1 = s then putAll [q] v c.2 else c.2) := by
  have hr₂ : ((putAll [s :: q] v x).at? (t :: r)).isSome := by
    rw [at?_putAll_of_apart (List.forall_mem_singleton.2 ⟨hqr, hrq⟩), hr]
    rfl
  rw [children_put hr₂, children_put (Option.isSome_of_mem hq), List.map_map]
  rfl

/-- **Two positions of which none lies below the other are put to in either order.** -/
theorem put_comm {q r : List Step} {b w : Json} (hd : x.Distinct) (hq : x.at? q = some a)
    (hr : x.at? r = some b) (hqr : ¬q <+: r) (hrq : ¬r <+: q) :
    putAll [r] w (putAll [q] v x) = putAll [q] v (putAll [r] w x) := by
  induction q generalizing r x with
  | nil => exact absurd List.nil_prefix hqr
  | cons s q ih =>
    cases r with
    | nil => exact absurd List.nil_prefix hrq
    | cons t r =>
      have hleft := children_put_put (v := v) (w := w) hq hr hqr hrq
      have hright := children_put_put (v := w) (w := v) hr hq hrq hqr
      apply eq_of_children
      · rw [kind_putAll (by simp), kind_putAll (by simp), kind_putAll (by simp),
          kind_putAll (by simp)]
      · obtain ⟨y, hy, -⟩ := Value.at?_cons_eq_some.1 hq
        have hx := Value.not_isLeaf_of_child? hy
        rw [← Value.children_eq_nil] at hx ⊢
        rwa [hleft, List.map_eq_nil_iff]
      · rw [hleft, hright]
        refine List.map_congr_left fun c hc => ?_
        by_cases hs : c.1 = s
        · by_cases ht : c.1 = t
          · -- both positions lie below this child
            have hcx := (Value.mem_children hd).1 hc
            have hst : s = t := hs.symm.trans ht
            rw [Value.at?_cons, ← hs, hcx] at hq
            rw [Value.at?_cons, ← ht, hcx] at hr
            simp only [if_pos hs, if_pos ht]
            rw [ih (hd.of_child? hcx) hq hr (fun h => hqr (List.cons_prefix_cons.2 ⟨hst, h⟩))
              fun h => hrq (List.cons_prefix_cons.2 ⟨hst.symm, h⟩)]
          · simp only [if_pos hs, if_neg ht]
        · simp only [if_neg hs]

end Json

/-! ### The leaf index -/

/-- The index with the entry of a path replaced, in its place, by the leaves of `v`. -/
def LeafIndex.splice (path : String) (v : Json) (index : LeafIndex Unit) : LeafIndex Unit :=
  index.flatMap fun e =>
    if e.1 = path then v.leaves.map fun l => (path ++ Path.suffix l.1, l.2) else [e]

-- A leaf comes under the path of the leaf that it replaces.
example : LeafIndex.splice ".b" .null [(".a", .int 1), (".b", .int 2), (".c", .int 3)]
    = [(".a", .int 1), (".b", .null), (".c", .int 3)] := rfl

/-- **A value in the place of a leaf is spliced into the leaf index.** -/
theorem Json.leafIndex_put {x a v : Json} {q : List Step} (hd : x.Distinct) (he : x.Expressible)
    (hv : v.Distinct) (hve : v.Expressible) (hq : x.at? q = some a) (ha : a.IsLeaf)
    (hne : q ≠ []) :
    (putAll [q] v x).leafIndex = x.leafIndex.splice (Path.render q) v := by
  rw [Value.leafIndex_eq_map (distinct_put hq hd hv) (expressible_put hq hd he hve),
    Value.leafIndex_eq_map hd he, leaves_put hd hq ha, graft, LeafIndex.splice,
    List.map_flatMap, List.flatMap_map]
  refine List.flatMap_congr fun e hmem => ?_
  have hiff : Path.render e.1 = Path.render q ↔ e.1 = q := by
    have hn := Value.named_of_at? he (Value.at?_of_mem_leaves hd hmem).1
    exact ⟨Path.render_inj hn (Value.named_of_at? he hq), congrArg _⟩
  by_cases h : e.1 = q
  · rw [if_pos h, if_pos (hiff.2 h), List.map_map]
    exact List.map_congr_left fun l _ => by rw [Function.comp_apply, Path.render_append hne]
  · rw [if_neg h, if_neg fun h' => h (hiff.1 h')]
    rfl

end JsonPaths
