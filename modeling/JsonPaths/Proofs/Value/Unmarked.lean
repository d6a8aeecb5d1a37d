/-
JsonPaths/Proofs/Value/Unmarked.lean

Leaves and equality do not look at marks.

The JSON value of a tree has the leaves of the tree, under the same texts
(`leafIndex_erase`), and equals what the tree equals (`equal_erase`).
-/
import JsonPaths.Proofs.Related
import JsonPaths.Proofs.Value.LeafIndex

namespace JsonPaths.Value

variable {μ ν : Type}

/-! ### Leaves -/

theorem children_erase (v : Value μ) :
    v.erase.children = v.children.map fun c => (c.1, c.2.erase) := by
  cases v with
  | array m items =>
    rw [erase_array, children, children]
    exact List.ext_getElem (by simp) (by simp)
  | object m ms => simp [erase_object, children]
  | _ => rfl

theorem leaves_erase (v : Value μ) :
    v.erase.leaves = v.leaves.map fun c => (c.1, c.2.erase) := by
  induction v using ind_children with
  | h v ih =>
    by_cases hv : v.IsLeaf
    · have hv' : v.erase.IsLeaf := by
        rw [← children_eq_nil, children_erase, children_eq_nil.2 hv, List.map_nil]
      rw [leaves_of_isLeaf hv, leaves_of_isLeaf hv', List.map_singleton]
    · have hv' : ¬v.erase.IsLeaf := by
        rwa [← children_eq_nil, children_erase, List.map_eq_nil_iff, children_eq_nil]
      rw [leaves_of_children hv, leaves_of_children hv', children_erase, List.flatMap_map,
        List.map_flatMap]
      refine List.flatMap_congr fun c hc => ?_
      simp [under, ih c hc]

/-- The leaf index of a value is that of the tree, with the values of its leaves. -/
theorem leafIndex_erase (v : Value μ) :
    v.erase.leafIndex = v.leafIndex.map fun p => (p.1, p.2.erase) := by
  have hleaves : List.Forall₂ (Assoc.Paired Eq fun a (b : Json) => a.erase = b)
      (v.leaves.map fun l => (Path.render l.1, l.2))
      (v.erase.leaves.map fun l => (Path.render l.1, l.2)) := by
    rw [leaves_erase, List.map_map, List.forall₂_map_left_iff, List.forall₂_map_right_iff]
    exact List.forall₂_same.2 fun _ _ => ⟨rfl, rfl⟩
  have hindex := Assoc.ofList_paired (fun h h' => by rw [h, h']) hleaves
  rw [← leafIndex_eq_ofList, ← leafIndex_eq_ofList] at hindex
  rw [← List.forall₂_eq_eq_eq, List.forall₂_map_right_iff]
  exact hindex.flip.imp fun p q h => Prod.ext h.1.symm h.2.symm

/-! ### Equality -/

theorem equalItems_eq_all (as : List (Value μ)) (bs : List (Value ν)) :
    equalItems as bs = (as.zip bs).all fun p => p.1.equal p.2 := by
  induction as generalizing bs with
  | nil => simp [equalItems]
  | cons a as ih =>
    cases bs with
    | nil => simp [equalItems]
    | cons b bs => rw [equalItems, ih, List.zip_cons_cons, List.all_cons]

theorem equalMembers_eq_all (as : List (String × Value μ)) (bs : List (String × Value ν)) :
    equalMembers as bs = as.all fun p => (bs.lookup p.1).any p.2.equal := by
  induction as with
  | nil => simp [equalMembers]
  | cons p as ih =>
    rw [equalMembers, List.all_cons, ← ih]
    cases bs.lookup p.1 <;> simp

/-- The values of two trees are equal if the trees are. -/
theorem equal_erase (a : Value μ) (b : Value ν) : a.erase.equal b.erase = a.equal b := by
  induction a using Value.ind generalizing b with
  | array m as ih =>
    cases b with
    | array m' bs =>
      have hitems : equalItems (as.map erase) (bs.map erase) = equalItems as bs := by
        rw [equalItems_eq_all, equalItems_eq_all, List.zip_map, List.all_map]
        refine List.all_congr_of_mem fun p hp => ?_
        exact ih p.1 (List.of_mem_zip hp).1 p.2
      rw [erase_array, erase_array, equal, equal, hitems, List.length_map, List.length_map]
    | _ => simp [erase, equal]
  | object m as ih =>
    cases b with
    | object m' bs =>
      have hmembers : equalMembers (as.map fun p => (p.1, p.2.erase))
          (bs.map fun p => (p.1, p.2.erase)) = equalMembers as bs := by
        rw [equalMembers_eq_all, equalMembers_eq_all, List.all_map]
        refine List.all_congr_of_mem fun p hp => ?_
        simp only [Function.comp_apply, Assoc.lookup_map]
        cases bs.lookup p.1 with
        | none => rfl
        | some b => exact ih p hp b
      rw [erase_object, erase_object, equal, equal, hmembers]
      simp [Assoc.sameKeys, Assoc.lookup_map, Function.comp_def]
    | _ => simp [erase, equal]
  | _ => cases b <;> simp [erase, equal]

end JsonPaths.Value
