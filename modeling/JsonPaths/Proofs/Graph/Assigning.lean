/-
JsonPaths/Proofs/Graph/Assigning.lean

Assignments in a graph and in the tree that it unfolds to.

A path addresses the same slots in both (`target_unfolds`), since containers have the
numbers of their nodes for marks.  A node that is stored at a slot shows wherever the
container occurs, as a write to the tree does (`store_unfolds`), provided that the new
value is apart from the containers that are written to: otherwise the graph would change
the new value too.  So the graph unfolds afterwards to the tree after the same assignment
(`assign_unfolds`), however much is shared.
-/
import JsonPaths.Proofs.Graph.Fill
import JsonPaths.Proofs.Graph.Reading

namespace JsonPaths

/-! ### One slot after another -/

/-- A write to slots is a write to the first one and then to the others, if the new value
is apart from their containers. -/
theorem Value.write_cons {s : Slot Nat} {slots : List (Slot Nat)} {x : Shared}
    (hx : ∀ t ∈ slots, t.owner ∉ x.marks) (v : Shared) :
    write (s :: slots) x v = write slots x (write [s] x v) := by
  induction v using Value.ind with
  | null | bool | int | double | string => rfl
  | array m items ih =>
    have hitems : (items.map (write [s] x)).map (write slots x)
        = items.map (write (s :: slots) x) := by
      rw [List.map_map]
      exact List.map_congr_left fun v hv => (ih v hv).symm
    rw [write_array, write_array, write_array, map_storeItems, write_of_disjoint hx, hitems]
    rfl
  | object m ms ih =>
    have hms : (ms.map fun p => (p.1, write [s] x p.2)).map (fun p => (p.1, write slots x p.2))
        = ms.map fun p => (p.1, write (s :: slots) x p.2) := by
      rw [List.map_map]
      exact List.map_congr_left fun p hp => congrArg (Prod.mk p.1) (ih p hp).symm
    rw [write_object, write_object, write_object, map_storeMembers, write_of_disjoint hx, hms]
    rfl

namespace Graph

variable {g : Graph} {i new : Nat} {v x : Shared}

/-! ### Slots -/

theorem slotsAt_unfolds (name : String) (h : g.Unfolds i v) :
    g.slotsAt name i = .ok (v.slots name) := by
  refine h.descend (P := fun fuel _ i v => g.slotsFrom name fuel i = .ok (v.slots name))
    ?scalar ?array ?object (Nat.lt_succ_self _)
  case scalar =>
    intro fuel _ i v h _
    cases hn : g.node i <;> rw [hn] at h <;> cases h <;> rw [slotsFrom, hn] <;> rfl
  case array =>
    intro fuel _ i is vs hn _ h
    have hitems := (h.imp fun _ _ h => h.2).mapM_map
    rw [slotsFrom, hn, Value.slots_array, List.flatMap_def]
    simp only [hitems]
    rfl
  case object =>
    intro fuel _ i ms vs hn _ h
    rw [slotsFrom, hn, Value.slots_object, ← (Assoc.lookup_paired text_beq h rfl).isSome_eq]

theorem hitsSlots_eq (name : String) (hs : List NodeHit) :
    g.hitsSlots name hs = (hs.mapM (g.hitSlots name)).map List.flatten := by
  induction hs with
  | nil => rfl
  | cons h hs ih =>
    rw [hitsSlots, ih, List.mapM_cons]
    cases g.hitSlots name h with
    | error s => rfl
    | ok l => cases hs.mapM (g.hitSlots name) <;> rfl

theorem hitSlots_unfolds (name : String) {h : NodeHit} {h' : Hit Nat Shared}
    (hh : g.HitUnfolds h h') : g.hitSlots name h = .ok (h'.slots name) := by
  induction hh with
  | member _ hv => exact slotsAt_unfolds name hv
  | @gathered hs hs' hl _ ih =>
    have hhits := (List.forall₂_iff_getElem?.2 ⟨hl, ih⟩).mapM_map
    rw [hitSlots, hitsSlots_eq, hhits, Hit.slots_gathered, List.flatMap_def]
    rfl

/-- A last step addresses the same slots at one place. -/
theorem placeSlots_unfolds (last : Step) {p : NodePlace} {q : Place Nat Shared}
    (h : g.PlaceUnfolds p q) : g.placeSlots last p = .ok (q.slots last) := by
  cases last with
  | field name =>
    cases h with
    | hits hh => exact hitSlots_unfolds name (Hit.related_gathered_iff.2 hh)
    | @value i v hv =>
      rw [placeSlots]
      cases hv with
      | object hn => rw [hn]; rfl
      | array hn hl hv => rw [hn]; exact slotsAt_unfolds name (.array hn hl hv)
      | scalar h =>
        have hslots := slotsAt_unfolds name (.scalar h)
        cases hn : g.node i <;> rw [hn] at h <;> cases h <;> exact hslots
  | index k =>
    cases h with
    | @hits hs hs' hh =>
      show Except.ok (hs[k]?.bind Hit.source).toList = .ok (hs'[k]?.bind Hit.source).toList
      have hk := hh.getElem? k
      generalize hs[k]? = a, hs'[k]? = b at hk
      cases hk with
      | none => rfl
      | some hab => exact congrArg (fun s => Except.ok s.toList) (Hit.source_eq hab)
    | @value i v hv =>
      rw [placeSlots]
      cases hv with
      | object hn => rw [hn]; rfl
      | array hn hl hv => rw [hn]; exact congrArg (fun n => Except.ok (if k < n then _ else _)) hl
      | scalar h => cases hn : g.node i <;> rw [hn] at h <;> cases h <;> rfl

/-- **A path addresses the same slots in the graph and in the tree.** -/
theorem target_unfolds (steps : List Step) (h : g.Unfolds i v) :
    g.target i steps = (v.target steps).mapError .obstacle := by
  rcases steps.eq_nil_or_concat' with rfl | ⟨init, last, rfl⟩
  · rfl
  · simp only [target, Value.target, List.getLast?_append, List.getLast?_singleton,
      List.dropLast_concat, Option.some_or]
    rcases reach_unfolds init h with ⟨o, hg, hv⟩ | ⟨p, q, hg, hv, hpq⟩
    · rw [hg, hv]
      rfl
    · rw [hg, hv]
      simp only [bind, Except.bind, placeSlots_unfolds last hpq]
      cases q.slots last <;> rfl

/-! ### Storing -/

theorem node_put {j : Nat} (hi : g.node i ≠ .null) (n : Node) :
    (g.put i n).node j = if j = i then n else g.node j := by
  rw [put, node, node, Array.getElem?_setIfInBounds]
  by_cases hji : j = i
  · subst hji
    rw [if_pos rfl, if_pos rfl, if_pos (lt_size_of_node_ne_null hi)]
    rfl
  · rw [if_neg (Ne.symm hji), if_neg hji]

/-- Only the container that a slot belongs to becomes another node. -/
theorem node_store_of_ne {s : Slot Nat} {j : Nat} (hj : j ≠ s.owner) :
    (g.store new s).node j = g.node j := by
  rw [store]
  split
  · next hn => rw [node_put (by rw [hn]; exact nofun), if_neg hj]
  · next hn => rw [node_put (by rw [hn]; exact nofun), if_neg hj]
  · rfl

theorem node_store_array {s : Slot Nat} {is : List Nat} (hn : g.node s.owner = .array is) :
    (g.store new s).node s.owner = .array (match s.step with
      | .index k => is.set k new
      | .field _ => is) := by
  obtain ⟨m, t⟩ := s
  cases t with
  | index k =>
    simp only [store, hn]
    rw [node_put (by rw [hn]; exact nofun), if_pos rfl]
  | field name =>
    simp only [store, hn]

theorem node_store_object {s : Slot Nat} {ms : List (Key × Nat)}
    (hn : g.node s.owner = .object ms) :
    (g.store new s).node s.owner = .object (match s.step with
      | .field name => Assoc.put (.text name) new ms
      | .index _ => ms) := by
  obtain ⟨m, t⟩ := s
  cases t with
  | index k => simp only [store, hn]
  | field name =>
    simp only [store, hn]
    rw [node_put (by rw [hn]; exact nofun), if_pos rfl]

theorem node_store_of_scalar {s : Slot Nat} (h : (g.node i).scalar? = some v) :
    (g.store new s).node i = g.node i := by
  by_cases hi : i = s.owner
  · rw [store]
    split
    · next hn => rw [hi, hn] at h; cases h
    · next hn => rw [hi, hn] at h; cases h
    · rfl
  · exact node_store_of_ne hi

/-- What does not hold the container of a slot is left as it is by a store there. -/
theorem Unfolds.store_of_notMem {s : Slot Nat} (h : g.Unfolds i v) (hs : s.owner ∉ v.marks) :
    (g.store new s).Unfolds i v := by
  induction h with
  | scalar h => exact .scalar (by rwa [node_store_of_scalar h])
  | @array i is vs hn hl _ ih =>
    have hi : i ≠ s.owner := by
      rintro rfl
      exact hs (Value.mem_marks_of_mark? rfl)
    refine .array (by rwa [node_store_of_ne hi]) hl fun k j v hj hv => ih k j v hj hv fun hm => ?_
    exact hs (Value.marks_subset_of_mem_items (List.mem_of_getElem? hv) hm)
  | @object i ms vs hn hkeys _ ih =>
    have hi : i ≠ s.owner := by
      rintro rfl
      exact hs (Value.mem_marks_of_mark? rfl)
    refine .object (by rwa [node_store_of_ne hi]) hkeys fun k n p hk hp =>
      ih k n p hk hp fun hm => ?_
    exact hs (Value.marks_subset_of_mem_members (List.mem_of_getElem? hp) hm)

/-- **A store shows wherever the container occurs**, as a write to the tree does. -/
theorem store_unfolds {s : Slot Nat} (hx : g.Unfolds new x) (hs : s.owner ∉ x.marks)
    (h : g.Unfolds i v) : (g.store new s).Unfolds i (Value.write [s] x v) := by
  have hx' : (g.store new s).Unfolds new x := hx.store_of_notMem hs
  induction h using Unfolds.ind with
  | scalar i v h =>
    have hv : Value.write [s] x v = v := by
      cases hn : g.node i <;> rw [hn] at h <;> cases h <;> rfl
    rw [hv]
    exact .scalar (by rwa [node_store_of_scalar h])
  | array i is vs hn h _ =>
    have hvs : List.Forall₂ (g.store new s).Unfolds is (vs.map (Value.write [s] x)) :=
      List.forall₂_map_right_iff.2 (h.imp fun _ _ h => h.2)
    rw [Value.write_array]
    by_cases hi : s.owner = i
    · subst hi
      refine unfolds_array (node_store_array hn) ?_
      -- an array takes a value at a place and no member
      obtain ⟨m, t⟩ := s
      cases t with
      | field name => exact hvs
      | index k => simpa [storeItems] using hvs.set hx' k
    · rw [Value.storeItems_of_ne (List.forall_mem_singleton.2 hi)]
      exact unfolds_array (by rwa [node_store_of_ne (Ne.symm hi)]) hvs
  | object i ms vs hn h _ =>
    have hvs : List.Forall₂ (Member (g.store new s).Unfolds) ms
        (vs.map fun p => (p.1, Value.write [s] x p.2)) :=
      List.forall₂_map_right_iff.2 (h.imp fun _ _ h => ⟨h.1, h.2.2⟩)
    rw [Value.write_object]
    by_cases hi : s.owner = i
    · subst hi
      refine unfolds_object (node_store_object hn) ?_
      obtain ⟨m, t⟩ := s
      cases t with
      | index k => exact hvs
      | field name => simpa [storeMembers] using Assoc.put_paired text_beq rfl hx' hvs
    · rw [Value.storeMembers_of_ne (List.forall_mem_singleton.2 hi)]
      exact unfolds_object (by rwa [node_store_of_ne (Ne.symm hi)]) hvs

/-- Stores at slots, one after the other, are a write to all of them. -/
theorem foldl_store_unfolds {slots : List (Slot Nat)} (hx : g.Unfolds new x)
    (hs : ∀ s ∈ slots, s.owner ∉ x.marks) (h : g.Unfolds i v) :
    (slots.foldl (store new) g).Unfolds i (Value.write slots x v) := by
  induction slots generalizing g v with
  | nil => rwa [List.foldl_nil, Value.write_of_disjoint (List.forall_mem_nil _)]
  | cons s slots ih =>
    obtain ⟨hs, hslots⟩ := List.forall_mem_cons.1 hs
    -- the store leaves the new value as it is, for the slots that follow
    rw [List.foldl_cons, Value.write_cons hslots]
    exact ih (hx.store_of_notMem hs) hslots (store_unfolds hx hs h)

/-- **An assignment in the graph is the assignment in the tree**, or both stop at one
obstacle.  No container of the new value may be one of the tree. -/
theorem assign_unfolds (steps : List Step) (h : g.Unfolds i v) (hx : g.Unfolds new x)
    (hvx : ∀ m ∈ v.marks, m ∉ x.marks) :
    (∃ o, g.assign i steps new = .error (.obstacle o) ∧ v.assign steps x = .error o) ∨
      ∃ g' v', g.assign i steps new = .ok g' ∧ v.assign steps x = .ok v' ∧ g'.Unfolds i v' := by
  rw [assign, Value.assign, target_unfolds steps h]
  cases ht : v.target steps with
  | error o => exact .inl ⟨o, rfl, rfl⟩
  | ok slots =>
    -- the slots belong to containers of the tree, which the new value is apart from
    refine .inr ⟨_, _, rfl, rfl, foldl_store_unfolds hx (fun s hs => ?_) h⟩
    obtain ⟨k, c, hc, hm, -⟩ := (Value.found_of_target ht hs).exists_owner
    exact hvx _ (hc.mem_marks hm)

end Graph

end JsonPaths
