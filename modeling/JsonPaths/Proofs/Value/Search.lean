/-
JsonPaths/Proofs/Value/Search.lean

Searching the leaf index.

A search lists the paths of the entries that equal a value.  In a tree whose keys are
names of the path grammar these are the paths of the leaves that equal it, each once and
in depth-first order (`find_eq_map`).  Nothing equals NaN, and no leaf equals a container
that holds something.

Where keys may be any strings, two leaves can have the same text.  Then the index keeps
the later one (`lookup_leafIndex`), so that it has an entry for every leaf exactly if the
texts are all different (`length_leafIndex_iff`).
-/
import JsonPaths.Proofs.Value.Canonical

namespace JsonPaths

/-! ### What no leaf equals -/

namespace Value

variable {μ ν : Type}

theorem equal_nan (w : Value μ) : w.equal (.double .nan : Value ν) = false := by
  cases w with
  | double x => cases x <;> simp [equal, Double.equals]
  | int n => simp [equal, Double.equalsInt, Double.ratio?]
  | _ => simp [equal]

/-- A leaf is no container that holds something. -/
theorem equal_of_not_isLeaf {w : Value μ} {v : Value ν} (hw : w.IsLeaf) (hv : ¬v.IsLeaf) :
    w.equal v = false := by
  cases v with
  | array m items =>
    cases w with
    | array m' items' =>
      obtain rfl : items' = [] := hw
      obtain ⟨x, xs, rfl⟩ := List.exists_cons_of_ne_nil (show items ≠ [] from hv)
      simp [equal]
    | _ => simp [equal]
  | object m ms =>
    cases w with
    | object m' ms' =>
      obtain rfl : ms' = [] := hw
      obtain ⟨p, ps, rfl⟩ := List.exists_cons_of_ne_nil (show ms ≠ [] from hv)
      simp [equal, Assoc.sameKeys]
    | _ => simp [equal]
  | _ => exact absurd trivial hv

end Value

/-! ### Entries that equal a value -/

namespace LeafIndex

variable {μ ν : Type}

theorem find_eq_nil {index : LeafIndex μ} {v : Value ν} :
    index.find v = [] ↔ ∀ e ∈ index, e.2.equal v = false := by
  simp [find, List.filter_eq_nil_iff]

end LeafIndex

namespace Value

variable {μ ν : Type}

/-- The positions of the leaves of `x` that equal `v`, in depth-first order. -/
def positionsOf (x : Value μ) (v : Value ν) : List (List Step) :=
  (x.leaves.filter fun l => l.2.equal v).map Prod.fst

theorem mem_positionsOf {x : Value μ} {v : Value ν} (hd : x.Distinct) {q : List Step} :
    q ∈ x.positionsOf v ↔ ∃ w, x.at? q = some w ∧ w.IsLeaf ∧ w.equal v = true := by
  simp only [positionsOf, List.mem_map, List.mem_filter]
  constructor
  · rintro ⟨⟨q, w⟩, ⟨hl, hw⟩, rfl⟩
    obtain ⟨hat, hleaf⟩ := at?_of_mem_leaves hd hl
    exact ⟨w, hat, hleaf, hw⟩
  · rintro ⟨w, hat, hleaf, hw⟩
    exact ⟨(q, w), ⟨mem_leaves_of_at? hat hleaf, hw⟩, rfl⟩

theorem pairwise_positionsOf (x : Value μ) (v : Value ν) :
    (x.positionsOf v).Pairwise x.Precedes :=
  List.pairwise_map.2 ((pairwise_leaves x).filter _)

/-- A search finds the leaves that equal the value, by the texts of their positions. -/
theorem find_eq_map {x : Value μ} (hd : x.Distinct) (he : x.Expressible) (v : Value ν) :
    x.leafIndex.find v = (x.positionsOf v).map Path.render := by
  rw [leafIndex_eq_map hd he, LeafIndex.find, List.filter_map, List.map_map, positionsOf,
    List.map_map]
  rfl

theorem nodup_find {x : Value μ} (hd : x.Distinct) (he : x.Expressible) (v : Value ν) :
    (x.leafIndex.find v).Nodup := by
  have hkeys : (Assoc.keys x.leafIndex).Nodup := by
    rw [leafIndex_eq_map hd he]
    exact nodup_texts hd he
  have hsub : List.Sublist (x.leafIndex.find v) (Assoc.keys x.leafIndex) :=
    List.filter_sublist.map _
  exact hkeys.sublist hsub

/-! ### Leaves with one text -/

/-- The texts of the leaves, in depth-first order. -/
def texts (x : Value μ) : List String := x.leaves.map fun l => Path.render l.1

/-- The leaf at `q` is the last one that has its text. -/
def Kept (x : Value μ) (q : List Step) (w : Value μ) : Prop :=
  ∃ before after, x.leaves = before ++ (q, w) :: after ∧
    ∀ l ∈ after, Path.render l.1 ≠ Path.render q

theorem keys_named (x : Value μ) :
    Assoc.keys (x.leaves.map fun l => (Path.render l.1, l.2)) = x.texts := by
  rw [Assoc.keys, List.map_map]
  rfl

/-- The entry of a text is the last leaf that has it. -/
theorem lookup_leafIndex {x w : Value μ} {p : String} :
    x.leafIndex.lookup p = some w ↔ ∃ q, Path.render q = p ∧ x.Kept q w := by
  rw [leafIndex_eq_ofList, Assoc.lookup_ofList_eq_some]
  constructor
  · rintro ⟨l₁, l₂, e, hp⟩
    obtain ⟨before, rest, hleaves, -, hrest⟩ := List.map_eq_append_iff.1 e
    obtain ⟨l, after, rfl, hl, rfl⟩ := List.map_eq_cons_iff.1 hrest
    obtain ⟨rfl, rfl⟩ := Prod.mk.inj hl
    refine ⟨l.1, rfl, before, after, hleaves, fun m hm hmp => hp ?_⟩
    rw [← hmp]
    exact List.mem_map_of_mem (List.mem_map_of_mem hm)
  · rintro ⟨q, rfl, before, after, e, hafter⟩
    refine ⟨before.map fun l => (Path.render l.1, l.2),
      after.map fun l => (Path.render l.1, l.2), by rw [e, List.map_append]; rfl, fun hp => ?_⟩
    obtain ⟨l, hl, e⟩ := List.mem_map.1 (show Path.render q ∈ List.map _ _ from hp)
    obtain ⟨m, hm, rfl⟩ := List.mem_map.1 hl
    exact hafter m hm e

theorem mem_leafIndex {x w : Value μ} {p : String} :
    (p, w) ∈ x.leafIndex ↔ ∃ q, Path.render q = p ∧ x.Kept q w := by
  have hn : (Assoc.keys x.leafIndex).Nodup := by
    rw [leafIndex_eq_ofList]
    exact (Assoc.nodup_keys_ofList _).1
  rw [← lookup_leafIndex]
  exact ⟨Assoc.lookup_of_mem hn, Assoc.mem_of_lookup⟩

/-- If the texts are all different, then every leaf is kept. -/
theorem kept_of_nodup {x w : Value μ} {q : List Step} (hn : x.texts.Nodup)
    (h : (q, w) ∈ x.leaves) : x.Kept q w := by
  obtain ⟨before, after, e⟩ := List.append_of_mem h
  refine ⟨before, after, e, fun l hl hlq => ?_⟩
  rw [texts, e, List.map_append, List.map_cons] at hn
  have hq := (List.nodup_cons.1 (List.nodup_append.1 hn).2.1).1
  exact hq (hlq ▸ List.mem_map_of_mem (f := fun l => Path.render l.1) hl)

/-- The index has as many entries as the leaves have texts. -/
theorem length_leafIndex (x : Value μ) : x.leafIndex.length = x.texts.dedup.length := by
  rw [leafIndex_eq_ofList, Assoc.length_ofList, keys_named]

theorem length_leafIndex_iff (x : Value μ) :
    x.leafIndex.length = x.leaves.length ↔ x.texts.Nodup := by
  have hlength : x.leaves.length = x.texts.length := (List.length_map _).symm
  rw [length_leafIndex, hlength, ← List.dedup_eq_self]
  exact ⟨(List.dedup_sublist x.texts).eq_of_length, congrArg List.length⟩

/-- A search fails exactly if no leaf that is kept equals the value. -/
theorem find_eq_nil_iff {x : Value μ} {v : Value ν} :
    x.leafIndex.find v = [] ↔ ∀ q w, x.Kept q w → w.equal v = false := by
  rw [LeafIndex.find_eq_nil]
  constructor
  · intro h q w hk
    exact h (Path.render q, w) (mem_leafIndex.2 ⟨q, rfl, hk⟩)
  · rintro h ⟨p, w⟩ hp
    obtain ⟨q, -, hk⟩ := mem_leafIndex.1 hp
    exact h q w hk

end Value

end JsonPaths
