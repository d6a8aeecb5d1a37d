/-
JsonPaths/Proofs/Unchecked.lean

Unchecked values that spell out JSON.

A graph that spells out a JSON value has the answers of that value: its text and what a path
leads to (`written_of_spells`, `query_of_spells`), its leaves and those that equal a target
(`leaves_of_spells`, `find_of_spells`), and how it compares (`compare_of_spells`).  So what is
proved of paths, leaves and equality in trees holds of graphs too.  An assignment shows in a
graph wherever a container occurs; it has the outcome that it has in the value if no
container occurs twice and the new value is apart (`assign_of_unfolds`).
-/
import JsonPaths.Unchecked
import JsonPaths.Proofs.Graph.Assigning
import JsonPaths.Proofs.Graph.Searching
import JsonPaths.Proofs.Path.Update

namespace JsonPaths.Unchecked

variable {g h : Graph} {root i j : Nat} {v w : Json} {doc c : Candidate} {o : Outline}

/-! ### Values at hand -/

/-- A value that is handed over as JSON is spelled out in its graph, whatever is added. -/
theorem spells_toGraph (hg : (Candidate.json v).toGraph.2.Extends h) :
    h.Spells (Candidate.json v).toGraph.1 v := by
  cases (Graph.added_addJson .empty v).spells h hg with
  | cons hv _ => exact hv

theorem lay_extends (hl : lay o g = .ok (i, h)) : g.Extends h :=
  Outline.lay_extends (Except.mapError_eq_ok.1 hl)

/-- An outline that stands for JSON is spelled out where it is laid. -/
theorem spells_lay (ho : ofOutline o = .ok (.json w)) (hl : lay o g = .ok (i, h)) :
    h.Spells i w := by
  rw [lay, Outline.lay_json (Except.mapError_eq_ok.1 ho)] at hl
  have hw := (Graph.added_addJson g w).spells _ (.refl _)
  rw [Except.ok.inj hl] at hw
  cases hw with
  | cons hw _ => exact hw

/-! ### Paths -/

/-- What is written as a value has the text of the value. -/
theorem textOf_written {r : Except Graph.Unwritable Json} (hr : Graph.Written r v) :
    (do textOf (← r.mapError .ofUnwritable)) = textOf v := by
  rcases hr with ⟨-, rfl⟩ | ⟨hv, rfl⟩
  · rfl
  · rw [textOf, Json.compactText, (Json.write_eq_none_iff _ v).2 hv]
    rfl

theorem nodeText_of_spells (hv : g.Spells i v) : nodeText g i = textOf v := by
  obtain ⟨u, hu, rfl⟩ := hv.exists_unfolds
  exact textOf_written (Graph.json_unfolds hu)

/-- A graph is written as the value that it spells out. -/
theorem written_of_spells (hv : g.Spells root v) :
    written (.graph g root) = written (.json v) :=
  nodeText_of_spells hv

/-- **A path leads to one text** in a graph and in the value that it spells out, or to one
error. -/
theorem query_of_spells (hv : g.Spells root v) (steps : List Step) :
    query (.graph g root) steps = query (.json v) steps := by
  obtain ⟨u, hu, rfl⟩ := hv.exists_unfolds
  rw [query, query, Value.query_erase, Value.query]
  rcases Graph.reach_unfolds steps hu with ⟨o, hg, hq⟩ | ⟨p, q, hg, hq, hpq⟩
  · rw [hg, hq]
    rfl
  · rw [hg, hq]
    exact textOf_written (Graph.placeJson_unfolds hpq)

/-! ### Leaves -/

/-- **A graph has the leaves of the value that it spells out.** -/
theorem leaves_of_spells (hv : g.Spells root v) : leaves (.graph g root) = leaves (.json v) := by
  obtain ⟨l, hl, hrel⟩ := hv.leafIndex
  have htexts : List.Forall₂ (fun p q => (do return (p.1, ← nodeText g p.2) : Except Error _)
      = do return (q.1, ← textOf q.2)) l v.leafIndex := by
    refine hrel.imp fun p q hpq => ?_
    rw [hpq.1, nodeText_of_spells hpq.2]
  rw [leaves, leaves, hl]
  exact htexts.mapM_eq

/-- **A search in a graph finds what it finds in the value that it spells out**, if its target
is spelled out too. -/
theorem find_of_spells (hl : lay o g = .ok (i, h)) (hv : h.Spells root v) (hw : h.Spells i w) :
    find (.graph g root) o = find (.json v) (.json w) := by
  obtain ⟨l, hl', hrel⟩ := hv.leafIndex
  have hfind : find (.graph g root) o = findNode h i l := by
    rw [find, hl]
    show (do findNode h i (← Error.orTooLong (h.leafIndex root))) = _
    rw [hl']
    rfl
  rw [hfind, findNode, Graph.find_spells hw hrel]
  rfl

/-- The nodes of an index of values. -/
theorem spells_index (index : LeafIndex Unit)
    (hg : (Graph.empty.addJsonMembers index).2.Extends h) :
    List.Forall₂ (Assoc.Paired Eq h.Spells)
      (index.zipWith (fun p q => (p.1, q.2)) (Graph.empty.addJsonMembers index).1) index := by
  have hadded : Graph.empty.Added _ (index.map Prod.snd) _ :=
    Graph.added_addJsonItems (fun v _ g => Graph.added_addJson g v) .empty
  rw [Graph.addJsonMembers_eq] at hg ⊢
  have hnodes := List.forall₂_map_right_iff.1 (hadded.spells h hg)
  generalize (Graph.empty.addJsonItems (index.map Prod.snd)).1 = is at hnodes
  clear hg hadded
  induction hnodes with
  | nil => exact .nil
  | cons hip _ ih => exact .cons ⟨rfl, hip⟩ ih

/-- A search for a graph among values finds what a search for the value finds that it spells
out. -/
theorem findIn_of_spells {index : LeafIndex Unit} (ho : ofOutline o = .ok (.graph g root))
    (hl : lay o (Graph.empty.addJsonMembers index).2 = .ok (i, h)) (hw : h.Spells i w) :
    findIn index o = findIn index (.json w) := by
  have hfind : findIn index o = findNode h i
      (index.zipWith (fun p q => (p.1, q.2)) (Graph.empty.addJsonMembers index).1) := by
    rw [findIn, ho]
    simp only [hl]
    rfl
  rw [hfind, findNode, Graph.find_spells hw (spells_index index (lay_extends hl))]
  rfl

/-! ### Comparison -/

/-- **Two values compare as what they spell out in one graph.** -/
theorem compare_of_spells {a b : Outline} {left right : Candidate}
    (ha : ofOutline a = .ok left) (hb : ofOutline b = .ok right)
    (hl : lay b left.toGraph.2 = .ok (j, h)) (hv : h.Spells left.toGraph.1 v)
    (hw : h.Spells j w) : compare a b = compare (.json v) (.json w) := by
  have hjson : compare (.json v) (.json w) = .ok ⟨v.kind, w.kind, v.equal w, w.equal v⟩ := rfl
  have hi : h.kindAt left.toGraph.1 = .ok v.kind := by rw [Graph.kindAt, hv.kind]
  have hj : h.kindAt j = .ok w.kind := by rw [Graph.kindAt, hw.kind]
  have hij := hv.equal hw
  have hji := hw.equal hv
  rw [hjson]
  -- unless both are JSON, they are compared as nodes of one graph
  cases left with
  | graph g root =>
    simp only [compare, ha, hb, hl, hi, hj, hij, hji, bind, Except.bind]
    rfl
  | json v' =>
    cases right with
    | graph g root =>
      simp only [compare, ha, hb, hl, hi, hj, hij, hji, bind, Except.bind]
      rfl
    | json w' =>
      obtain rfl := hv.unique (spells_toGraph (lay_extends hl))
      obtain rfl := hw.unique (spells_lay hb hl)
      simp only [compare, ha, hb, bind, Except.bind]
      rfl

/-! ### Assignments -/

/-- **An assignment of JSON to JSON** is the plain update at the addressed positions, if the
path addresses any. -/
theorem assign_json (hv : v.Distinct) (steps : List Step) (w : Json) :
    assign (.json v) steps (.json w)
      = ((v.target steps).mapError (.ofObstacle steps)).map fun _ =>
        .json (Json.putAll (v.addressed steps) w v) := by
  have hplain := Value.erase_assign (Document.distinct_withMarks hv 0)
    (Value.unshared_of_nodup (Value.nodup_marks_withMarks v 0)) steps
    (w.withMarks (v.withMarks 0).2).1
  rw [Value.erase_json_withMarks, Value.erase_json_withMarks] at hplain
  rw [assign, ofOutline]
  show (do
    let a ← (((v.withMarks 0).1.assign steps (w.withMarks (v.withMarks 0).2).1).mapError
      (Error.ofObstacle steps))
    return Candidate.json a.erase) = _
  cases ht : v.target steps with
  | error o =>
    rw [ht] at hplain
    rw [Except.map_eq_error.1 hplain]
    rfl
  | ok slots =>
    rw [ht] at hplain
    obtain ⟨a, ha, hplain⟩ := Except.map_eq_ok.1 hplain
    rw [ha]
    exact congrArg (fun w => Except.ok (Candidate.json w)) hplain.symm

/-- An assignment is one in a graph, unless both values are JSON. -/
theorem assign_eq_or_json (ho : ofOutline o = .ok c) (hl : lay o doc.toGraph.2 = .ok (i, h))
    (steps : List Step) :
    assign doc steps o = ((h.assign doc.toGraph.1 steps i).mapError (Error.ofStop h steps)).map
        (.graph · doc.toGraph.1) ∨
      ∃ v w, doc = .json v ∧ c = .json w := by
  cases doc with
  | graph g root =>
    left
    simp only [assign, ho, hl, bind, Except.bind]
    rfl
  | json v =>
    cases c with
    | graph g root =>
      left
      simp only [assign, ho, hl, bind, Except.bind]
      rfl
    | json w => exact .inr ⟨v, w, rfl, rfl⟩

section Assigning

variable {u x : Shared} (hh : h.KeysDistinct) (hs : u.Unshared)
  (hux : ∀ m ∈ u.marks, m ∉ x.marks)

include hh hs hux

/-- An assignment in a graph comes to what the assignment of what is spelled out comes to. -/
theorem graph_assign_of_unfolds (hu : h.Unfolds root u) (hx : h.Unfolds i x)
    (steps : List Step) :
    (∃ e, (h.assign root steps i).mapError (Error.ofStop h steps) = .error e ∧
        assign (.json u.erase) steps (.json x.erase) = .error e) ∨
      ∃ after w, (h.assign root steps i).mapError (Error.ofStop h steps) = .ok after ∧
        assign (.json u.erase) steps (.json x.erase) = .ok (.json w) ∧ after.Spells root w := by
  have hd := hu.spells.distinct hh
  have hplain := Value.erase_assign (Value.distinct_erase.1 hd) hs steps x
  rw [assign_json hd]
  rcases Graph.assign_unfolds steps hu hx hux with ⟨o, hg, ho⟩ | ⟨after, a, hg, ha, hafter⟩
  · rw [ho] at hplain
    rw [hg, Except.map_eq_error.1 hplain.symm]
    exact .inl ⟨_, rfl, rfl⟩
  · rw [ha] at hplain
    obtain ⟨slots, ht, hplain⟩ := Except.map_eq_ok.1 hplain.symm
    rw [hg, ht]
    exact .inr ⟨after, _, rfl, rfl, hplain ▸ hafter.spells⟩

/-- **An assignment in a graph spells out what the assignment makes of the value**, or both
have one error.  No container may occur twice in the value, and none of the value in what
is assigned: the graph would change at every place where it occurs. -/
theorem assign_of_unfolds (ho : ofOutline o = .ok c) (hl : lay o doc.toGraph.2 = .ok (i, h))
    (hu : h.Unfolds doc.toGraph.1 u) (hx : h.Unfolds i x) (steps : List Step) :
    (∃ e, assign doc steps o = .error e ∧
        assign (.json u.erase) steps (.json x.erase) = .error e) ∨
      ∃ after w, assign doc steps o = .ok after ∧
        assign (.json u.erase) steps (.json x.erase) = .ok (.json w) ∧
        after.toGraph.2.Spells after.toGraph.1 w := by
  rcases assign_eq_or_json ho hl steps with hgraph | ⟨v, w, rfl, rfl⟩
  · rw [hgraph]
    rcases graph_assign_of_unfolds hh hs hux hu hx steps with
      ⟨e, hg, he⟩ | ⟨g', w, hg, hw, hspells⟩
    · exact .inl ⟨e, by rw [hg]; rfl, he⟩
    · exact .inr ⟨.graph g' doc.toGraph.1, w, by rw [hg]; rfl, hw, hspells⟩
  · -- both are JSON, and nothing is laid
    obtain rfl : u.erase = v := hu.spells.unique (spells_toGraph (lay_extends hl))
    obtain rfl : x.erase = w := hx.spells.unique (spells_lay ho hl)
    have hjson : assign (.json u.erase) steps o = assign (.json u.erase) steps (.json x.erase) := by
      rw [assign, ho]
      rfl
    rw [hjson, assign_json (hu.spells.distinct hh)]
    cases u.erase.target steps with
    | error o => exact .inl ⟨_, rfl, rfl⟩
    | ok slots => exact .inr ⟨_, _, rfl, rfl, spells_toGraph (.refl _)⟩

end Assigning

end JsonPaths.Unchecked
