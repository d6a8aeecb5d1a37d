/-
JsonPaths/Proofs/Value/LeafIndex.lean

The leaf index is built in depth-first order.

The index is made by a loop over a list of values still to be visited, and the text
of a path is made longer step by step.  Both are given here as what they come to: the
text is that of the path (`extend_text`), and the loop enters the leaves of the tree
one after the other as the recursion on the tree lists them (`leafIndex_eq_ofList`).
Keys may be any strings.
-/
import JsonPaths.Proofs.Path.Canonical
import JsonPaths.Proofs.Value.LeafOrder

namespace JsonPaths

/-! ### The text of a path -/

namespace Leaves

variable {μ : Type}

/-- The text of a path while leaves are collected; that of the root is empty. -/
def text (p : List Step) : String := if p = [] then "" else Path.render p

theorem text_concat (p : List Step) (s : Step) : text (p ++ [s]) = Path.render (p ++ [s]) :=
  if_neg (List.append_ne_nil_of_right_ne_nil p (List.cons_ne_nil s []))

/-- The text that is made longer is that of the longer path. -/
theorem extend_text (p : List Step) (s : Step) : extend (text p) s = text (p ++ [s]) := by
  rw [text_concat]
  by_cases hp : p = []
  · rw [text, if_pos hp, hp]
    cases s with
    | field name => simp [extend, Path.render, Path.chars, Path.dotted, Step.chars]
    | index i => simp [extend, Path.render, Path.chars, Path.dotted, Step.chars, Step.render]
  · rw [text, if_neg hp, Path.render_concat hp]
    cases s with
    | field name => simp [extend, Step.render, Step.chars, String.append_assoc]
    | index i => simp [extend, Path.render_ne_empty p]

theorem name_text (p : List Step) : name (text p) = Path.render p := by
  by_cases hp : p = []
  · rw [hp]
    rfl
  · rw [text, if_neg hp, name, if_neg (Path.render_ne_empty p)]

/-! ### The loop -/

/-- The leaves of values at given positions, with their paths as texts. -/
def named (pending : List (List Step × Value μ)) : List (String × Value μ) :=
  pending.flatMap fun c => c.2.leaves.map fun l => (Path.render (c.1 ++ l.1), l.2)

theorem named_append (a b : List (List Step × Value μ)) :
    named (a ++ b) = named a ++ named b :=
  List.flatMap_append

theorem named_leaf {v : Value μ} (h : v.IsLeaf) (p : List Step) :
    named [(p, v)] = [(Path.render p, v)] := by
  simp [named, Value.leaves_of_isLeaf h]

/-- The children of a value have its leaves. -/
theorem named_children {v : Value μ} (h : ¬ v.IsLeaf) (p : List Step) :
    named (v.children.map fun c => (p ++ [c.1], c.2)) = named [(p, v)] := by
  simp [named, Value.leaves_of_children h, Value.under, List.flatMap_map, List.map_flatMap,
    Function.comp_def]

/-- What the loop comes to: the leaves of the values to be visited are entered one
after the other.  By induction on the size of what is to be visited. -/
theorem collect_eq (pending : List (List Step × Value μ)) (index : LeafIndex μ) :
    collect (pending.map fun c => (text c.1, c.2)) index =
      Assoc.enter (named pending) index := by
  match pending with
  | [] =>
    rw [List.map_nil, collect]
    rfl
  | (p, v) :: rest =>
    have hfirst : named ((p, v) :: rest) = named [(p, v)] ++ named rest :=
      named_append [(p, v)] rest
    rw [List.map_cons, collect, hfirst, Assoc.enter_append]
    by_cases hv : v.IsLeaf
    · have hc : v.children.isEmpty = true := by
        rwa [List.isEmpty_iff, Value.children_eq_nil]
      rw [if_pos hc, collect_eq rest, name_text, named_leaf hv]
      rfl
    · have hc : ¬ v.children.isEmpty = true := by
        rwa [List.isEmpty_iff, Value.children_eq_nil]
      -- the children come before what is left, with their texts made longer
      have hnext : (v.children.map fun c => (extend (text p) c.1, c.2)) ++
          rest.map (fun c => (text c.1, c.2)) =
          ((v.children.map fun c => (p ++ [c.1], c.2)) ++ rest).map
            fun c => (text c.1, c.2) := by
        simp [extend_text, Function.comp_def]
      rw [if_neg hc, hnext, collect_eq, named_append, Assoc.enter_append, named_children hv]
termination_by Value.sizeAll pending
decreasing_by
  · have hlt := Value.sizeAll_children_lt v
    simp only [Value.sizeAll]
    omega
  · have hlt := Value.sizeAll_children_lt v
    simp only [Value.sizeAll_append, Value.sizeAll_map (p ++ [·]), Value.sizeAll]
    omega

end Leaves

namespace Value

variable {μ : Type}

/-- The leaf index of a tree: its leaves are entered in depth-first order. -/
theorem leafIndex_eq_ofList (v : Value μ) :
    v.leafIndex = Assoc.ofList (v.leaves.map fun l => (Path.render l.1, l.2)) := by
  have hroot : Leaves.named [([], v)] = v.leaves.map fun l => (Path.render l.1, l.2) := by
    simp [Leaves.named]
  rw [← hroot]
  exact Leaves.collect_eq [([], v)] []

end Value

end JsonPaths
