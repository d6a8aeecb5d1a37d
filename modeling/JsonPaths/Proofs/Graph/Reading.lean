/-
JsonPaths/Proofs/Graph/Reading.lean

Paths in a graph and in the tree that it unfolds to.

A path leads to one place in both or stops in both before one step (`reach_unfolds`): a
node is met where its value is, and a hit is read from the object that has the number of
the node for a mark.  What stands at the place is written as one value
(`placeJson_unfolds`), unless a whole number in it has too many digits.
-/
import JsonPaths.Graph.Reach
import JsonPaths.Proofs.Graph.Unfold
import JsonPaths.Proofs.Json.Writer
import JsonPaths.Proofs.Path.Related

namespace JsonPaths.Graph

variable {g : Graph} {i : Nat} {v : Shared}

/-! ### Hits of a field -/

/-- The hit in the graph is the hit in the tree: each value is what the graph unfolds to at
the node. -/
abbrev HitUnfolds (g : Graph) : NodeHit → Hit Nat Shared → Prop := Hit.Related Eq g.Unfolds

/-- The place in the graph is the place in the tree. -/
abbrev PlaceUnfolds (g : Graph) : NodePlace → Place Nat Shared → Prop :=
  Place.Related Eq g.Unfolds

theorem pick_unfolds (name : String) (h : g.Unfolds i v) :
    ∃ r, g.pick name i = .ok r ∧ Option.Rel g.HitUnfolds r (v.pick name) := by
  refine h.descend (P := fun fuel _ i v => ∃ r, g.pickFrom name fuel i = .ok r ∧
    Option.Rel g.HitUnfolds r (v.pick name)) ?scalar ?array ?object (Nat.lt_succ_self _)
  case scalar =>
    -- no field is found in a scalar
    intro fuel _ i v h _
    refine ⟨none, ?_, ?_⟩
    · cases hn : g.node i <;> rw [hn] at h <;> cases h <;> rw [pickFrom, hn] <;> rfl
    · cases hn : g.node i <;> rw [hn] at h <;> cases h <;> exact .none
  case array =>
    intro fuel _ i is vs hn _ h
    obtain ⟨rs, hrs, hrel⟩ := (h.imp fun _ _ h => h.2).mapM
    refine ⟨Hit.gather (rs.filterMap id), ?_, ?_⟩
    · simp only [pickFrom, hn, hrs]
      rfl
    · rw [Value.pick_array]
      exact Hit.related_gather (List.rel_filterMap (fun _ _ h => h) hrel)
  case object =>
    intro fuel _ i ms vs hn _ h
    refine ⟨_, by rw [pickFrom, hn], ?_⟩
    rw [Value.pick_object]
    exact (Assoc.lookup_paired text_beq h rfl).map fun _ _ h => .member rfl h.1

theorem pickHits_eq (name : String) (hs : List NodeHit) :
    g.pickHits name hs = (hs.mapM (g.pickHit name)).map (List.filterMap id) := by
  induction hs with
  | nil => rfl
  | cons h hs ih =>
    rw [pickHits, ih, List.mapM_cons]
    cases g.pickHit name h with
    | error s => rfl
    | ok r =>
      cases hs.mapM (g.pickHit name) with
      | error s => rfl
      | ok rs => cases r <;> rfl

theorem pickHit_unfolds (name : String) {h : NodeHit} {h' : Hit Nat Shared}
    (hh : g.HitUnfolds h h') :
    ∃ r, g.pickHit name h = .ok r ∧ Option.Rel g.HitUnfolds r (h'.pick name) := by
  induction hh with
  | member _ hv => exact pick_unfolds name hv
  | @gathered hs hs' hl _ ih =>
    obtain ⟨rs, hrs, hrel⟩ := (List.forall₂_iff_getElem?.2 ⟨hl, ih⟩).mapM
    refine ⟨Hit.gather (rs.filterMap id), ?_, ?_⟩
    · simp only [pickHit, pickHits_eq, hrs]
      rfl
    · rw [Hit.pick_gathered]
      exact Hit.related_gather (List.rel_filterMap (fun _ _ h => h) hrel)

/-! ### Walking -/

variable {p : NodePlace} {q : Place Nat Shared}

/-- A step leads to one place, or from the place nowhere in both. -/
theorem follow_unfolds (s : Step) (h : g.PlaceUnfolds p q) :
    ∃ r, g.follow s p = .ok r ∧ Option.Rel g.PlaceUnfolds r (q.step s) := by
  cases s with
  | field name =>
    cases h with
    | value hv =>
      obtain ⟨r, hr, hrel⟩ := pick_unfolds name hv
      refine ⟨r.map Hit.place, by rw [follow, hr]; rfl, ?_⟩
      exact hrel.map fun _ _ => Hit.related_place
    | @hits hs hs' hh =>
      obtain ⟨r, hr, hrel⟩ := pickHit_unfolds name (Hit.related_gathered_iff.2 hh)
      refine ⟨r.map Hit.place, ?_, hrel.map fun _ _ => Hit.related_place⟩
      rw [pickHit] at hr
      rw [follow]
      cases hp : g.pickHits name hs with
      | error s => rw [hp] at hr; cases hr
      | ok hits =>
        rw [hp] at hr
        exact congrArg (fun r => Except.ok (r.map Hit.place)) (Except.ok.inj hr)
  | index k =>
    cases h with
    | hits hh => exact ⟨_, rfl, (hh.getElem? k).map fun _ _ => Hit.related_place⟩
    | @value i v hv =>
      cases hv with
      | @array _ is vs hn hl hv =>
        refine ⟨is[k]?.map .value, by rw [follow, hn], ?_⟩
        exact ((List.forall₂_iff_getElem?.2 ⟨hl, hv⟩).getElem? k).map fun _ _ => .value
      | object hn => exact ⟨none, by rw [follow, hn]; rfl, .none⟩
      | scalar h =>
        cases hn : g.node i <;> rw [hn] at h <;> cases h <;>
          exact ⟨none, by rw [follow, hn]; rfl, .none⟩

/-- **Two walks in step**: they stop before the same step, or lead to one place. -/
theorem walk_unfolds (n : Nat) (ss : List Step) (h : g.PlaceUnfolds p q) :
    (∃ o, g.walk p n ss = .error (.obstacle o) ∧ q.walk n ss = .error o) ∨
      ∃ p' q', g.walk p n ss = .ok p' ∧ q.walk n ss = .ok q' ∧ g.PlaceUnfolds p' q' := by
  induction ss generalizing p q n with
  | nil => exact .inr ⟨p, q, rfl, rfl, h⟩
  | cons s ss ih =>
    obtain ⟨r, hr, hstep⟩ := follow_unfolds s h
    rw [walk, hr, Place.walk_cons]
    generalize q.step s = r' at hstep
    cases hstep with
    | none => exact .inl ⟨_, rfl, rfl⟩
    | some hab => exact ih (n + 1) hab

/-- **A path leads to one place in the graph and in the tree**, or stops before one step. -/
theorem reach_unfolds (steps : List Step) (h : g.Unfolds i v) :
    (∃ o, g.reach i steps = .error (.obstacle o) ∧ v.reach steps = .error o) ∨
      ∃ p q, g.reach i steps = .ok p ∧ v.reach steps = .ok q ∧ g.PlaceUnfolds p q :=
  walk_unfolds 0 steps (.value h)

/-! ### Writing -/

/-- What becomes of a value that is written as JSON: the value itself, unless a whole
number in it has too many digits. -/
abbrev Written : Except Unwritable Json → Json → Prop :=
  Except.Passes .tooLong Value.WithinDigits

theorem Written.array {r : Except Unwritable (List Json)} {vs : List Json}
    (h : r.Passes .tooLong (fun vs => ∀ v ∈ vs, v.WithinDigits) vs) :
    Written (r.map (.array ())) (.array () vs) :=
  h.map fun _ => Value.withinDigits_array_iff

theorem jsonFrom_scalar {fuel : Nat} {above : List Nat} (h : (g.node i).scalar? = some v) :
    Written (g.jsonFrom (fuel + 1) above i) v.erase := by
  cases hn : g.node i with
  | int n =>
    rw [hn] at h
    cases h
    by_cases hdigits : (Nat.toDigits 10 n.natAbs).length ≤ Text.digitLimit
    · refine .inl ⟨Value.withinDigits_int_iff.2 hdigits, ?_⟩
      simp only [jsonFrom, hn, Text.intText?, if_neg (Nat.not_lt.2 hdigits)]
      rfl
    · refine .inr ⟨mt Value.withinDigits_int_iff.1 hdigits, ?_⟩
      simp only [jsonFrom, hn, Text.intText?, if_pos (Nat.not_le.1 hdigits)]
      rfl
  | null | bool | double | string =>
    rw [hn] at h
    cases h
    exact .inl ⟨Value.withinDigits_of_atom rfl (by simp [Value.erase]), by rw [jsonFrom, hn]; rfl⟩
  | _ =>
    rw [hn] at h
    cases h

/-- **A node is written as the value that it unfolds to.** -/
theorem json_unfolds (h : g.Unfolds i v) : Written (g.json i) v.erase := by
  refine h.descend (P := fun fuel above i v => Written (g.jsonFrom fuel above i) v.erase)
    (fun _ _ _ _ h _ => jsonFrom_scalar h) ?array ?object (Nat.lt_succ_self _)
  case array =>
    intro fuel above i is vs hn hi h
    rw [Value.erase_array, jsonFrom, hn]
    simp only [if_neg hi]
    exact .array (List.forall₂_map_right_iff.2 (h.imp fun _ _ h => h.2)).mapM_passes
  case object =>
    intro fuel above i ms vs hn hi h
    rw [Value.erase_object, jsonFrom, hn]
    simp only [if_neg hi]
    refine Except.Passes.map ?_ fun _ => Value.withinDigits_object_iff
    refine (List.forall₂_map_right_iff.2 (h.imp fun n p hp => ?_)).mapM_passes
    obtain ⟨k, j⟩ := n
    obtain ⟨rfl, -, hp⟩ := hp
    exact hp.map (f := Prod.mk p.1) fun _ => Iff.rfl

theorem hitsJson_eq (hs : List NodeHit) : g.hitsJson hs = hs.mapM g.hitJson := by
  induction hs with
  | nil => rfl
  | cons h hs ih =>
    rw [hitsJson, ih, List.mapM_cons]

theorem hitJson_unfolds {h : NodeHit} {h' : Hit Nat Shared} (hh : g.HitUnfolds h h') :
    Written (g.hitJson h) h'.plain := by
  induction hh with
  | member _ hv => exact json_unfolds hv
  | @gathered hs hs' hl _ ih =>
    rw [hitJson, hitsJson_eq, Hit.plain_gathered]
    exact .array (List.forall₂_map_right_iff.2 (List.forall₂_iff_getElem?.2 ⟨hl, ih⟩)).mapM_passes

/-- What stands at a place is written as one value. -/
theorem placeJson_unfolds (h : g.PlaceUnfolds p q) : Written (g.placeJson p) q.plain := by
  cases h with
  | value hv => exact json_unfolds hv
  | hits hs => exact hitJson_unfolds (Hit.related_gathered_iff.2 hs)

end JsonPaths.Graph
