/-
JsonPaths/Proofs/Value/Enumeration.lean

The loop that lists the leaves, round by round.

The loop keeps a list of values that are still to be visited.  One round takes the first
of them: a leaf is entered into the index, and anything else gives way to its children.
Every round takes one node off what is left (`sizeAll_round`), so the loop is done after
as many rounds as the tree has nodes and not before (`iterate_round`).  By then it has
entered the leaves as the recursion on the tree lists them, under the texts of their
positions; keys may be any strings, and where texts coincide the entry has the place of
the first leaf and the value of the last (`leafIndex_exact`).
-/
import JsonPaths.Proofs.Value.Search
import Mathlib.Logic.Function.Iterate

namespace JsonPaths

variable {μ : Type}

/-! ### Sizes -/

namespace Value

theorem size_eq (v : Value μ) : v.size = sizeAll v.children + 1 := by
  cases v with
  | array m items => rw [children, sizeAll_mapIdx, size]
  | object m ms => rw [children, sizeAll_map, sizeAll_members, size]
  | _ => rfl

theorem sizeAll_eq_zero {α : Type} {l : List (α × Value μ)} : sizeAll l = 0 ↔ l = [] := by
  cases l with
  | nil => exact iff_of_true rfl rfl
  | cons p l =>
    have hp := p.2.size_eq
    rw [sizeAll]
    exact iff_of_false (by omega) (List.cons_ne_nil p l)

end Value

/-! ### Rounds -/

namespace Leaves

/-- One round of the loop, on the values still to be visited with their paths and on the
index made so far. -/
def round : List (String × Value μ) × LeafIndex μ → List (String × Value μ) × LeafIndex μ
  | ([], index) => ([], index)
  | ((path, v) :: rest, index) =>
    if v.children.isEmpty then (rest, Assoc.put (name path) v index)
    else (v.children.map (fun c => (extend path c.1, c.2)) ++ rest, index)

variable (state : List (String × Value μ) × LeafIndex μ)

/-- A round takes one node off what is left. -/
theorem sizeAll_round : Value.sizeAll (round state).1 = Value.sizeAll state.1 - 1 := by
  obtain ⟨_ | ⟨⟨path, v⟩, rest⟩, index⟩ := state
  · rfl
  · have hv := v.size_eq
    by_cases hc : v.children.isEmpty
    · have hnil : v.children = [] := List.isEmpty_iff.1 hc
      rw [hnil, Value.sizeAll] at hv
      simp only [round, hc, if_true, Value.sizeAll]
      omega
    · simp only [round, hc, Bool.false_eq_true, if_false, Value.sizeAll_append,
        Value.sizeAll_map, Value.sizeAll]
      omega

/-- A round does not change what the loop comes to. -/
theorem collect_round : collect (round state).1 (round state).2 = collect state.1 state.2 := by
  obtain ⟨_ | ⟨⟨path, v⟩, rest⟩, index⟩ := state
  · rfl
  · rw [collect.eq_def ((path, v) :: rest)]
    by_cases hc : v.children.isEmpty
    · simp only [round, hc, if_true]
    · simp only [round, hc, Bool.false_eq_true, if_false]

theorem sizeAll_iterate_round (n : Nat) :
    Value.sizeAll (round^[n] state).1 = Value.sizeAll state.1 - n := by
  induction n with
  | zero => rfl
  | succ n ih => rw [Function.iterate_succ_apply', sizeAll_round, ih, Nat.sub_sub]

theorem collect_iterate_round (n : Nat) :
    collect (round^[n] state).1 (round^[n] state).2 = collect state.1 state.2 := by
  induction n with
  | zero => rfl
  | succ n ih => rw [Function.iterate_succ_apply', collect_round, ih]

/-- The loop is done after as many rounds as there are nodes to be visited. -/
theorem iterate_round :
    round^[Value.sizeAll state.1] state = ([], collect state.1 state.2) := by
  have hsize := sizeAll_iterate_round state (Value.sizeAll state.1)
  rw [Nat.sub_self, Value.sizeAll_eq_zero] at hsize
  have hcollect := collect_iterate_round state (Value.sizeAll state.1)
  rw [hsize, collect] at hcollect
  exact Prod.ext hsize hcollect

/-- The loop is not done before. -/
theorem iterate_round_ne_nil {n : Nat} (h : n < Value.sizeAll state.1) :
    (round^[n] state).1 ≠ [] := by
  intro hnil
  have hsize := sizeAll_iterate_round state n
  rw [Value.sizeAll_eq_zero.2 hnil] at hsize
  omega

end Leaves

/-! ### The leaf index -/

namespace Value

theorem keys_leafIndex (v : Value μ) : Assoc.keys v.leafIndex = v.texts.eraseDups := by
  rw [leafIndex_eq_ofList, Assoc.keys_ofList, keys_named]

/-- **The loop enumerates the leaves as the recursion does, whatever the keys are.**  It
is done after as many rounds as the tree has nodes, and its index comes from entering the
leaves in depth-first order under the texts of their positions.  The texts stand in the
order in which they first occur, and each has the last leaf that it is the text of.  If
objects are maps, then the leaves that the recursion lists are those at the leaf positions
of the tree, each once. -/
theorem leafIndex_exact (v : Value μ) :
    (Leaves.round^[v.size] ([("", v)], []) = ([], v.leafIndex) ∧
        ∀ n < v.size, (Leaves.round^[n] ([("", v)], [])).1 ≠ []) ∧
      v.leafIndex = Assoc.ofList (v.leaves.map fun l => (Path.render l.1, l.2)) ∧
      Assoc.keys v.leafIndex = v.texts.eraseDups ∧
      (∀ p w, (p, w) ∈ v.leafIndex ↔ ∃ q, Path.render q = p ∧ v.Kept q w) ∧
      (v.leaves.Pairwise fun a b => v.Precedes a.1 b.1) ∧
      (v.Distinct → (∀ q w, (q, w) ∈ v.leaves ↔ v.at? q = some w ∧ w.IsLeaf) ∧
        (v.leaves.map Prod.fst).Nodup) := by
  have hsize : sizeAll [("", v)] = v.size := rfl
  refine ⟨⟨?_, fun n hn => ?_⟩, leafIndex_eq_ofList v, keys_leafIndex v,
    fun p w => mem_leafIndex, pairwise_leaves v,
    fun hd => ⟨fun q w => mem_leaves hd, nodup_leaves hd⟩⟩
  · rw [← hsize]
    exact Leaves.iterate_round ([("", v)], [])
  · rw [← hsize] at hn
    exact Leaves.iterate_round_ne_nil ([("", v)], []) hn

/-- A tree with an empty key, and with a key that makes two texts coincide. -/
def ambiguous : Json :=
  .object () [("a", .object () [("b", .int 2)]), ("", .array () [.array () []]),
    ("a.b", .int 1)]

theorem distinct_ambiguous : ambiguous.Distinct := by
  have hint : ∀ n : Int, (Value.int n : Json).Distinct := fun n => distinct_of_mark?_eq_none rfl
  simp [ambiguous, distinct_object_iff, distinct_array_iff, Assoc.keys, hint]

/-- Six rounds, three leaves and two entries, of which the first has the last leaf. -/
theorem leafIndex_exact_ambiguous :
    ambiguous.Distinct ∧ ambiguous.leaves.length = 3 ∧
      Leaves.round^[6] ([("", ambiguous)], []) =
        ([], [(".a.b", .int 1), (".[0]", .array () [])]) ∧
      (ambiguous.leaves.map Prod.fst).Nodup := by
  obtain ⟨⟨hrounds, -⟩, hindex, -, -, -, hpositions⟩ := leafIndex_exact ambiguous
  refine ⟨distinct_ambiguous, rfl, ?_, (hpositions distinct_ambiguous).2⟩
  have hsize : ambiguous.size = 6 := rfl
  rw [← hsize, hrounds, hindex]
  rfl

end Value

end JsonPaths
