/-
JsonPaths/Proofs/Value/Canonical.lean

Canonical paths.

The canonical path of a position is the text of its steps.  In a tree whose keys are
names of the path grammar (`Value.Expressible`) it is read back to these steps, and
they lead to the value at the position and never to a gathered list, since each of
them meets the container that it was taken from.  So different positions have
different texts, and the leaf index has one entry for every leaf.
-/
import JsonPaths.Proofs.Value.LeafIndex

namespace JsonPaths

namespace Value

variable {μ : Type}

/-! ### Trees with canonical paths -/

/-- Every key is a name of the path grammar. -/
def Expressible (v : Value μ) : Prop :=
  v.Objects fun ms => ∀ p ∈ ms, Path.IsName p.1.toList

theorem Expressible.of_contains {v w : Value μ} {k : Nat} (h : v.Expressible)
    (hc : v.Contains k w) : w.Expressible :=
  Objects.of_contains h hc

theorem expressible_of_mark?_eq_none {v : Value μ} (h : v.mark? = none) : v.Expressible :=
  objects_of_mark?_eq_none h

theorem expressible_array_iff {m : μ} {items : List (Value μ)} :
    (array m items).Expressible ↔ ∀ v ∈ items, v.Expressible :=
  objects_array_iff

theorem expressible_object_iff {m : μ} {ms : List (String × Value μ)} :
    (object m ms).Expressible ↔
      (∀ p ∈ ms, Path.IsName p.1.toList) ∧ ∀ p ∈ ms, p.2.Expressible :=
  objects_object_iff

theorem expressible_iff_children {v : Value μ} :
    v.Expressible ↔ ∀ c ∈ v.children, c.1.Named ∧ c.2.Expressible := by
  cases v with
  | array m items =>
    rw [expressible_array_iff]
    constructor
    · intro h c hc
      obtain ⟨i, hs, hi⟩ := mem_children_array.1 hc
      exact ⟨hs ▸ trivial, h _ (List.mem_of_getElem? hi)⟩
    · intro h w hw
      obtain ⟨i, hi⟩ := List.mem_iff_getElem?.1 hw
      exact (h (.index i, w) (mem_children_array.2 ⟨i, rfl, hi⟩)).2
  | object m ms =>
    show _ ↔ ∀ c ∈ ms.map fun p => (Step.field p.1, p.2), c.1.Named ∧ c.2.Expressible
    rw [expressible_object_iff, ← forall₂_and, List.forall_mem_map]
    rfl
  | _ => exact iff_of_true (expressible_of_mark?_eq_none rfl) (List.forall_mem_nil _)

theorem named_of_child? {v w : Value μ} {s : Step} (he : v.Expressible)
    (h : v.child? s = some w) : s.Named := by
  cases v with
  | array m items =>
    obtain ⟨i, rfl, -⟩ := child?_array_eq_some.1 h
    exact trivial
  | object m ms =>
    obtain ⟨k, rfl, hk⟩ := child?_object_eq_some.1 h
    exact he 0 m ms (.here _) _ (Assoc.mem_of_lookup hk)
  | _ => cases s <;> cases h

theorem named_of_at? {p : List Step} {v w : Value μ} (he : v.Expressible)
    (h : v.at? p = some w) : ∀ s ∈ p, s.Named := by
  induction p generalizing v with
  | nil => exact List.forall_mem_nil _
  | cons s p ih =>
    obtain ⟨x, hx, h⟩ := at?_cons_eq_some.1 h
    have hs := named_of_child? he hx
    exact List.forall_mem_cons.2 ⟨hs, ih (he.of_contains (contains_of_child? hx)) h⟩

/-! ### What the steps of a position lead to -/

theorem step_of_child? {v w : Value μ} {s : Step} (h : v.child? s = some w) :
    (Place.value v).step s = some (.value w) := by
  cases v with
  | array m items =>
    obtain ⟨i, rfl, hi⟩ := child?_array_eq_some.1 h
    rw [Place.step_array_index, hi]
    rfl
  | object m ms =>
    obtain ⟨k, rfl, hk⟩ := child?_object_eq_some.1 h
    rw [Place.step_value_field, pick_object, hk]
    rfl
  | _ => cases s <;> cases h

theorem walk_of_at? {p : List Step} {v w : Value μ} (n : Nat) (h : v.at? p = some w) :
    (Place.value v).walk n p = .ok (.value w) := by
  induction p generalizing v n with
  | nil => exact congrArg (fun x => Except.ok (Place.value x)) (Option.some.inj h)
  | cons s p ih =>
    obtain ⟨x, hx, h⟩ := at?_cons_eq_some.1 h
    rw [Place.walk_cons, step_of_child? hx]
    exact ih (n + 1) h

/-- The steps of a position lead to the value at it. -/
theorem reach_of_at? {p : List Step} {v w : Value μ} (h : v.at? p = some w) :
    v.reach p = .ok (.value w) :=
  walk_of_at? 0 h

theorem query_of_at? {p : List Step} {v w : Value μ} (h : v.at? p = some w) :
    v.query p = .ok w.erase := by
  rw [query, reach_of_at? h]
  rfl

/-! ### The leaf index -/

/-- The texts of the leaves are all different. -/
theorem nodup_texts {v : Value μ} (hd : v.Distinct) (he : v.Expressible) :
    (Assoc.keys (v.leaves.map fun l => (Path.render l.1, l.2))).Nodup := by
  have hkeys : Assoc.keys (v.leaves.map fun l => (Path.render l.1, l.2)) =
      (v.leaves.map Prod.fst).map Path.render := by
    rw [Assoc.keys, List.map_map, List.map_map]
    rfl
  have hnamed : ∀ p ∈ v.leaves.map Prod.fst, ∀ s ∈ p, s.Named := by
    intro p hp
    obtain ⟨l, hl, rfl⟩ := List.mem_map.1 hp
    exact named_of_at? he (at?_of_mem_leaves hd hl).1
  rw [hkeys]
  refine List.Nodup.map_on ?_ (nodup_leaves hd)
  intro p hp q hq h
  exact Path.render_inj (hnamed p hp) (hnamed q hq) h

theorem leafIndex_eq_map {v : Value μ} (hd : v.Distinct) (he : v.Expressible) :
    v.leafIndex = v.leaves.map fun l => (Path.render l.1, l.2) := by
  rw [leafIndex_eq_ofList, Assoc.ofList_eq_self (nodup_texts hd he)]

/-- **Canonical paths.**  The text of the steps of a position is read back to these
steps, exactly if no place in it has too many digits (is `10 ^ 4300` or more), and the
steps lead to the value at the position.  The leaf index has an entry for every leaf,
under the text of its position and with the leaf, and no other; the texts are all
different, and the positions ascend in depth-first order. -/
theorem canonical_paths {v : Value μ} (hd : v.Distinct) (he : v.Expressible) :
    (∀ p w, v.at? p = some w →
      (Path.parse (Path.render p) = .ok p ↔ ∀ s ∈ p, s.Writable) ∧
        v.reach p = .ok (.value w) ∧ v.query p = .ok w.erase) ∧
    v.leafIndex = v.leaves.map (fun l => (Path.render l.1, l.2)) ∧
    (∀ p w, (p, w) ∈ v.leaves ↔ v.at? p = some w ∧ w.IsLeaf) ∧
    (Assoc.keys v.leafIndex).Nodup ∧
    v.leaves.Pairwise fun a b => v.Precedes a.1 b.1 := by
  refine ⟨fun p w h => ?_, leafIndex_eq_map hd he, fun p w => mem_leaves hd, ?_,
    pairwise_leaves v⟩
  · have hn := named_of_at? he h
    exact ⟨Path.parse_render_iff hn, reach_of_at? h, query_of_at? h⟩
  · rw [leafIndex_eq_map hd he]
    exact nodup_texts hd he

/-- An array and an empty object in an object. -/
def nested : Json := .object () [("a", .array () [.null, .object () []]), ("b", .int 1)]

theorem canonical_paths_nested :
    nested.Distinct ∧ nested.Expressible ∧
      Path.parse (Path.render [.field "a", .index 1]) = .ok [.field "a", .index 1] ∧
      nested.query [.field "a", .index 1] = .ok (.object () []) ∧
      nested.leafIndex = [(".a[0]", .null), (".a[1]", .object () []), (".b", .int 1)] := by
  have hnull : (null : Json).Distinct ∧ (null : Json).Expressible :=
    ⟨distinct_of_mark?_eq_none rfl, expressible_of_mark?_eq_none rfl⟩
  have hint : (int 1 : Json).Distinct ∧ (int 1 : Json).Expressible :=
    ⟨distinct_of_mark?_eq_none rfl, expressible_of_mark?_eq_none rfl⟩
  have hd : nested.Distinct := by
    simp [nested, distinct_object_iff, distinct_array_iff, Assoc.keys, hnull.1, hint.1]
  have ha : Path.IsName "a".toList := ⟨by simp, by simp⟩
  have hb : Path.IsName "b".toList := ⟨by simp, by simp⟩
  have he : nested.Expressible := by
    simp only [nested, expressible_object_iff, expressible_array_iff, List.forall_mem_cons]
    exact ⟨⟨ha, hb, List.forall_mem_nil _⟩,
      ⟨hnull.2, ⟨List.forall_mem_nil _, List.forall_mem_nil _⟩, List.forall_mem_nil _⟩,
      hint.2, List.forall_mem_nil _⟩
  have hone : (Step.index 1).Writable := by
    show (Nat.toDigits 10 1).length ≤ Text.digitLimit
    decide
  have hw : ∀ s ∈ [Step.field "a", .index 1], s.Writable :=
    List.forall_mem_cons.2 ⟨trivial, List.forall_mem_singleton.2 hone⟩
  obtain ⟨hat, hindex, -⟩ := canonical_paths hd he
  obtain ⟨hparse, -, hquery⟩ := hat [.field "a", .index 1] (.object () []) rfl
  exact ⟨hd, he, hparse.2 hw, hquery, hindex⟩

end Value

end JsonPaths
