/-
JsonPaths/Proofs/Graph/Searching.lean

Leaves and equality in a graph that spells out JSON.

The leaf index at a node has the texts of the leaf index of the value, each with the node
of the leaf (`Spells.leafIndex`).  Two nodes are equal if the values are (`Spells.equal`), so
that a search in an index of nodes finds what a search in the index of values finds
(`find_spells`).  Both walks are followed in the tree that the graph unfolds to, whose
marks neither leaves nor equality look at.
-/
import JsonPaths.Graph.Leaves
import JsonPaths.Proofs.Graph.Accepted
import JsonPaths.Proofs.Value.Unmarked

namespace JsonPaths.Graph

variable {g : Graph} {i : Nat} {v : Shared}

/-! ### Leaves -/

/-- Leaves of the graph and leaves of the tree, in turn under the same texts. -/
abbrev SameLeaves (g : Graph) : List (String × Nat) → LeafIndex Nat → Prop :=
  List.Forall₂ (Assoc.Paired Eq g.Unfolds)

/-- The leaves of the parts of a container are those of its children. -/
theorem leaves_parts {α : Type} {f : α → Option (List (String × Nat))} {parts : List α}
    {p : List Step}
    (h : List.Forall₂ (fun a c => ∃ l, f a = some l ∧
      g.SameLeaves l (Leaves.named [(p ++ [c.1], c.2)])) parts v.children) :
    ∃ ls, parts.mapM f = some ls ∧
      g.SameLeaves ls.flatten (Leaves.named (v.children.map fun c => (p ++ [c.1], c.2))) := by
  obtain ⟨ls, hls, hrel⟩ := h.mapM
  refine ⟨ls, hls, ?_⟩
  have hnamed : Leaves.named (v.children.map fun c => (p ++ [c.1], c.2))
      = (v.children.map fun c => Leaves.named [(p ++ [c.1], c.2)]).flatten := by
    simp [Leaves.named, List.flatMap_def, Function.comp_def]
  rw [hnamed]
  exact List.rel_flatten (List.forall₂_map_right_iff.2 hrel)

/-- A node that stands for a leaf, which an empty container is too, has itself for its only
leaf. -/
theorem leavesFrom_of_isLeaf (h : g.Unfolds i v) (hv : v.IsLeaf) (fuel : Nat)
    (above : List Nat) (p : List Step) :
    ∃ l, g.leavesFrom (fuel + 1) above (Leaves.text p) i = some l ∧
      g.SameLeaves l (Leaves.named [(p, v)]) := by
  refine ⟨[(Path.render p, i)], ?_, ?_⟩
  · rw [← Leaves.name_text]
    cases h with
    | scalar h => cases hn : g.node i <;> rw [hn] at h <;> cases h <;> rw [leavesFrom, hn]
    | array hn hl =>
      obtain rfl : _ = [] := hv
      obtain rfl := List.length_eq_zero_iff.1 hl
      rw [leavesFrom, hn]
    | object hn hkeys =>
      obtain rfl : _ = [] := hv
      obtain rfl := List.map_eq_nil_iff.1 hkeys
      rw [leavesFrom, hn]
  · rw [Leaves.named_leaf hv]
    exact .cons ⟨rfl, h⟩ .nil

theorem leavesFrom_unfolds (h : g.Unfolds i v) (p : List Step) :
    ∃ l, g.leavesFrom g.depth [] (Leaves.text p) i = some l ∧
      g.SameLeaves l (Leaves.named [(p, v)]) := by
  refine h.descend (P := fun fuel above i v => ∀ p, ∃ l,
    g.leavesFrom fuel above (Leaves.text p) i = some l ∧
      g.SameLeaves l (Leaves.named [(p, v)])) ?scalar ?array ?object (Nat.lt_succ_self _) p
  case scalar =>
    intro fuel above i v h _ p
    have hleaf : v.IsLeaf := by
      cases hn : g.node i <;> rw [hn] at h <;> cases h <;> trivial
    exact leavesFrom_of_isLeaf (.scalar h) hleaf fuel above p
  case array =>
    intro fuel above i is vs hn hi h p
    have hparts : List.Forall₂ (fun (a : String × Nat) (c : Step × Shared) => ∃ l,
        g.leavesFrom fuel (i :: above) a.1 a.2 = some l ∧
          g.SameLeaves l (Leaves.named [(p ++ [c.1], c.2)]))
        (is.mapIdx fun k j => (Leaves.extend (Leaves.text p) (.index k), j))
        (Value.array i vs).children := by
      refine h.mapIdx fun k j v hv => ?_
      rw [Leaves.extend_text]
      exact hv.2 (p ++ [.index k])
    obtain ⟨ls, hls, hrel⟩ := leaves_parts hparts
    cases h with
    | nil => exact leavesFrom_of_isLeaf (unfolds_array hn .nil) rfl fuel above p
    | @cons _ x _ vs =>
      -- the array has an item, so its leaves are those of its items
      have hleaf : ¬(Value.array i (x :: vs)).IsLeaf := List.cons_ne_nil x vs
      rw [Leaves.named_children hleaf] at hrel
      refine ⟨ls.flatten, ?_, hrel⟩
      simp only [leavesFrom, hn, if_neg hi, hls]
      rfl
  case object =>
    intro fuel above i ms vs hn hi h p
    have hparts : List.Forall₂ (fun (m : Key × Nat) (c : Step × Shared) => ∃ l,
        (do leavesFrom g fuel (i :: above) (← extend (Leaves.text p) m.1) m.2) = some l ∧
          g.SameLeaves l (Leaves.named [(p ++ [c.1], c.2)])) ms
        (Value.object i vs).children := by
      -- a key is a text here, so that the path of a member has one
      refine List.forall₂_map_right_iff.2 (h.imp fun n q hn => ?_)
      obtain ⟨k, j⟩ := n
      obtain ⟨rfl, -, hv⟩ := hn
      obtain ⟨l, hl, hrel⟩ := hv (p ++ [.field q.1])
      rw [← Leaves.extend_text] at hl
      exact ⟨l, hl, hrel⟩
    obtain ⟨ls, hls, hrel⟩ := leaves_parts hparts
    cases h with
    | nil => exact leavesFrom_of_isLeaf (unfolds_object hn .nil) rfl fuel above p
    | @cons _ q _ vs =>
      have hleaf : ¬(Value.object i (q :: vs)).IsLeaf := List.cons_ne_nil q vs
      rw [Leaves.named_children hleaf] at hrel
      refine ⟨ls.flatten, ?_, hrel⟩
      simp only [leavesFrom, hn, if_neg hi, hls]
      rfl

/-- **The leaf index at a node is that of the value that is spelled out there**, with a node
for every leaf. -/
theorem Spells.leafIndex {v : Json} (h : g.Spells i v) :
    ∃ l, g.leafIndex i = some l ∧ List.Forall₂ (Assoc.Paired Eq g.Spells) l v.leafIndex := by
  obtain ⟨u, hu, rfl⟩ := h.exists_unfolds
  obtain ⟨l, hl, hrel⟩ := leavesFrom_unfolds hu []
  have hroot : Leaves.named [([], u)] = u.leaves.map fun l => (Path.render l.1, l.2) := by
    simp [Leaves.named]
  have hindex : List.Forall₂ (Assoc.Paired Eq g.Unfolds) (Assoc.ofList l) u.leafIndex := by
    rw [Value.leafIndex_eq_ofList, ← hroot]
    exact Assoc.ofList_paired (fun h h' => by rw [h, h']) hrel
  refine ⟨Assoc.ofList l, congrArg (Option.map Assoc.ofList) hl, ?_⟩
  rw [Value.leafIndex_erase, List.forall₂_map_right_iff]
  exact hindex.imp fun _ _ h => ⟨h.1, h.2.spells⟩

/-! ### Equality -/

variable {j : Nat} {w : Shared}

theorem equalFrom_unfolds {fuel : Nat} (hf : g.nodes.size < fuel) (hv : g.Unfolds i v)
    (hw : g.Unfolds j w) : g.equalFrom fuel i j = .ok (v.equal w) := by
  refine hv.descend (P := fun fuel _ i v => ∀ j w, g.Unfolds j w →
    g.equalFrom fuel i j = .ok (v.equal w)) ?scalar ?array ?object hf j w hw
  case scalar =>
    intro fuel _ i v h _ j w hw
    rw [equalFrom, (Unfolds.scalar h).spells.kind, hw.spells.kind]
    cases hw with
    | scalar h' =>
      cases hn : g.node i <;> rw [hn] at h <;> cases h <;>
        cases hn' : g.node j <;> rw [hn'] at h' <;> cases h' <;> simp only [Value.equal]
    | array hn' | object hn' =>
      rw [hn']
      cases hn : g.node i <;> rw [hn] at h <;> cases h <;> simp only [Value.equal]
  case array =>
    intro fuel _ i is vs hn _ h j w hw
    have hi := (unfolds_array hn (h.imp fun _ _ h => h.1)).spells.kind
    rw [equalFrom, hi, hw.spells.kind]
    simp only [hn]
    cases hw with
    | array hn' hl hws =>
      have hitems := (h.zip (List.forall₂_iff_getElem?.2 ⟨hl, hws⟩)).imp
        fun p q hpq => hpq.1.2 p.2 q.2 hpq.2
      rw [hn', Value.equal, Value.equalItems_eq_all]
      simp only [hitems.allM, h.length_eq, hl]
      split
      · next hlen => rw [decide_eq_true hlen, Bool.true_and]; rfl
      · next hlen => rw [decide_eq_false hlen, Bool.false_and]
    | object hn' => rw [hn']; rfl
    | scalar h' => cases hn' : g.node j <;> rw [hn'] at h' <;> cases h' <;> rfl
  case object =>
    intro fuel _ i ms vs hn _ h j w hw
    have hi := (unfolds_object hn (h.imp fun _ _ h => ⟨h.1, h.2.1⟩)).spells.kind
    rw [equalFrom, hi, hw.spells.kind]
    simp only [hn]
    cases hw with
    | array hn' => rw [hn']; rfl
    | @object _ ns ws hn' hkeys hws =>
      have hw := forall₂_member_iff.2 ⟨hkeys, hws⟩
      rw [hn', Value.equal, Value.equalMembers_eq_all]
      simp only [Assoc.sameKeys_paired text_beq h hw]
      split
      · next hsame =>
        rw [hsame, Bool.true_and]
        refine List.Forall₂.allM (h.imp fun m p hp => ?_)
        have hlookup := Assoc.lookup_paired text_beq hw hp.1
        generalize ns.lookup m.1 = a, ws.lookup p.1 = b at hlookup
        cases hlookup with
        | none => rfl
        | some hab => exact hp.2.2 _ _ hab
      · next hsame => rw [Bool.eq_false_iff.2 hsame, Bool.false_and]
    | scalar h' => cases hn' : g.node j <;> rw [hn'] at h' <;> cases h' <;> rfl

/-- **Two nodes are equal if the values that are spelled out there are.** -/
theorem Spells.equal {v w : Json} (hv : g.Spells i v) (hw : g.Spells j w) :
    g.equal i j = .ok (v.equal w) := by
  obtain ⟨a, ha, rfl⟩ := hv.exists_unfolds
  obtain ⟨b, hb, rfl⟩ := hw.exists_unfolds
  rw [Value.equal_erase]
  exact equalFrom_unfolds (Nat.lt_succ_of_le (Nat.le_mul_self _)) ha hb

/-- **A search among nodes finds what it finds among the values that are spelled out
there.** -/
theorem find_spells {w : Json} (hw : g.Spells j w) {l : List (String × Nat)}
    {index : LeafIndex Unit} (h : List.Forall₂ (Assoc.Paired Eq g.Spells) l index) :
    g.find j l = .ok (index.find w) := by
  induction h with
  | nil => rfl
  | @cons a b l index hab _ ih =>
    obtain ⟨path, k⟩ := a
    obtain ⟨path', u⟩ := b
    obtain ⟨rfl, hu⟩ : path = path' ∧ g.Spells k u := hab
    rw [find, hu.equal hw, ih, LeafIndex.find, LeafIndex.find, List.filter_cons]
    show Except.ok _ = _
    cases u.equal w <;> rfl

end JsonPaths.Graph
