/-
JsonPaths/Proofs/Document/PlainUpdate.lean

Assignments to documents as updates of plain trees.

An assignment stores one value in all the slots of its path.  Where the value is
a container, it is shared from then on, and a later assignment to one of its
positions shows at the others (`setPath_shows_elsewhere`).  So an assignment puts
its value at the positions that its path addresses, but it is the update of a
plain tree there exactly if every other position that shares a slot had the
value before (`value_after_setPath`).  Without a container that is assigned to
several positions at once nothing is ever shared, and every assignment is a
plain update (`value_after_setPath_of_sparing`).
-/
import JsonPaths.Proofs.Document.Calls
import JsonPaths.Proofs.Document.ReadBack
import JsonPaths.Proofs.Path.Update

namespace JsonPaths

/-! ### Values whose objects are maps -/

/-- A candidate that is refused or spells out a value with distinct keys, as all
do whose objects are maps. -/
def Candidate.Proper (c : Candidate) : Prop := ∀ v, c.check = .ok v → v.Distinct

theorem Candidate.proper_json {v : Json} (h : v.Distinct) : (Candidate.json v).Proper := by
  intro w hw
  exact Except.ok.inj hw ▸ h

/-- The values of a call have distinct keys. -/
def Call.Proper : Call → Prop
  | .set _ c | .find c => c.Proper
  | _ => True

namespace Document

/-- Documents that calls with proper values lead to. -/
abbrev ProperReachable : Document → Prop :=
  ReachableBy Candidate.Proper fun _ c => c.Proper

theorem distinct_withMarks {v : Json} (h : v.Distinct) (n : Nat) :
    (v.withMarks n).1.Distinct := by
  rwa [← Value.distinct_erase, Value.erase_json_withMarks]

/-- Objects stay maps. -/
theorem ReachableBy.distinct {allowed : Document → Call → Prop}
    (ha : ∀ d c, allowed d c → c.Proper) {d : Document}
    (h : ReachableBy Candidate.Proper allowed d) : d.root.Distinct := by
  refine h.invariant (I := fun root _ => root.Distinct) (fun v hv => ?_)
    fun d path c v steps e _ hd hc hv _ he => ?_
  · refine distinct_withMarks ?_ 0
    rcases hv with ⟨c, hc, hv⟩ | hv
    · exact hc v hv
    · exact hv
  · have hnew := distinct_withMarks (ha d _ hc v hv) d.next
    obtain ⟨-, ⟨-, -, hroot⟩ | ⟨slots, -, hroot⟩⟩ := assigned_eq_ok he
    · rwa [hroot]
    · rw [hroot]
      exact hd.write hnew

/-! ### When an assignment is a plain update -/

/-- The positions that an assignment to a path writes to: all those at which its
slots lie in the tree that a document keeps. -/
def Writes (d : Document) (steps : List Step) (q : List Step) : Prop :=
  ∃ slots, d.root.target steps = .ok slots ∧ d.root.Spot slots q

theorem assigned_of_setPath {d : Document} {path : String} {c : Candidate} {v : Json}
    {steps : List Step} (hc : c.check = .ok v) (hp : Path.parse path = .ok steps)
    (h : (d.setPath (.string path) c).result = .ok true) :
    d.assigned steps v = .ok (d.setPath (.string path) c).document := by
  obtain ⟨v', steps', e, hc', hp', ha, -, hdoc⟩ | ⟨hne, -⟩ := setPath_cases d (.string path) c
  · obtain rfl := Except.ok.inj (hc'.symm.trans hc)
    obtain rfl := Except.ok.inj ((parse_of_ofJson hp').symm.trans hp)
    rw [hdoc, ha]
  · exact absurd h hne

/-- **An assignment puts its value at the addressed positions.  It is the update
of a plain tree exactly if every other position that it writes to had the value
before.** -/
theorem value_after_setPath {d : Document} (hd : d.ProperReachable) {path : String}
    {c : Candidate} {v : Json} {steps : List Step} (hc : c.check = .ok v)
    (hp : Path.parse path = .ok steps)
    (h : (d.setPath (.string path) c).result = .ok true) :
    (∀ q ∈ d.value.addressed steps,
        (d.setPath (.string path) c).document.value.at? q = some v) ∧
      ((d.setPath (.string path) c).document.value
          = Json.putAll (d.value.addressed steps) v d.value ↔
        ∀ q, d.Writes steps q → q ∈ d.value.addressed steps ∨ d.value.at? q = some v) := by
  have hsound := hd.sound.consistent
  have hdist := hd.distinct fun _ _ h => h
  have hv : (v.withMarks d.next).1.erase = v := by
    rw [Value.erase_withMarks, Value.erase_json]
  obtain ⟨-, ⟨rfl, -, hroot⟩ | ⟨slots, ht, hroot⟩⟩ :=
    assigned_eq_ok (assigned_of_setPath hc hp h)
  · -- The root is addressed alone, and has no slot.
    have hafter : (d.setPath (.string path) c).document.value = v :=
      (congrArg Value.erase hroot).trans hv
    rw [hafter]
    constructor
    · intro q hq
      rw [List.mem_singleton.1 hq]
      rfl
    · refine iff_of_true ?_ ?_
      · exact (Json.putAll_of_mem List.mem_cons_self _).symm
      · rintro q ⟨slots, ht, -⟩
        cases ht
  · have hiff := Value.erase_write_eq_putAll_iff (v.withMarks d.next).1 hsound hdist ht
    rw [hv] at hiff
    have hafter : (d.setPath (.string path) c).document.value
        = (Value.write slots (v.withMarks d.next).1 d.root).erase := congrArg Value.erase hroot
    have hwrites : ∀ q, d.Writes steps q ↔ d.root.Spot slots q := by
      intro q
      constructor
      · rintro ⟨slots', ht', hq⟩
        obtain rfl := Except.ok.inj (ht.symm.trans ht')
        exact hq
      · intro hq
        exact ⟨slots, ht, hq⟩
    rw [hafter]
    constructor
    · intro q hq
      have hspot := Value.spot_of_mem_addressed hdist ht hq
      rw [Value.at?_erase, Value.at?_write_of_spot hsound ht hspot, Option.map_some, hv]
    · simp only [hwrites]
      exact hiff

/-! ### A write that shows elsewhere -/

/-- An assignment to a path that addresses slots goes through. -/
theorem setPath_of_target {d : Document} {path : String} {c : Candidate} {v : Json}
    {steps : List Step} {slots : List (Slot Nat)} (hc : c.check = .ok v)
    (hp : Path.parse path = .ok steps) (ht : d.root.target steps = .ok slots) :
    (d.setPath (.string path) c).result = .ok true ∧
      (d.setPath (.string path) c).document.root
        = Value.write slots (v.withMarks d.next).1 d.root := by
  have hassign : d.assigned steps v = .ok { d with
      root := Value.write slots (v.withMarks d.next).1 d.root
      next := (v.withMarks d.next).2, index := none } := by
    cases steps with
    | nil => cases ht
    | cons s ss =>
      simp only [assigned, Value.assign, ht, Except.map]
  obtain ⟨hr, hdoc⟩ := setPath_of_assigned hc (ofJson_of_parse hp) hassign
  exact ⟨hr, congrArg root hdoc⟩

theorem properReachable_pair : pair.ProperReachable := by
  refine .ofCandidate (Candidate.proper_json ?_) ofCandidate_pair
  simp [Value.distinct_array_iff, Value.distinct_object_iff, Assoc.keys,
    Value.distinct_of_mark?_eq_none (v := (Value.int 1 : Json)) rfl]

theorem properReachable_sharing : sharing.ProperReachable := by
  refine .call (d := pair) (.set (.string ".a") (.json (.object () [("k", .int 0)])))
    properReachable_pair (Candidate.proper_json ?_)
  simp [Value.distinct_object_iff, Assoc.keys,
    Value.distinct_of_mark?_eq_none (v := (Value.int 0 : Json)) rfl]

theorem root_sharing : sharing.root = .array 0 [
    .object 1 [("a", .object 3 [("k", .int 0)])],
    .object 2 [("a", .object 3 [("k", .int 0)])]] := rfl

theorem parse_first : Path.parse ".[0].a.k" = .ok [.index 0, .field "a", .field "k"] := by
  decide +kernel

theorem setPath_sharing :
    (sharing.setPath (.string ".[0].a.k") (.json (.int 5))).result = .ok true ∧
      (sharing.setPath (.string ".[0].a.k") (.json (.int 5))).document.root
        = .array 0 [
          .object 1 [("a", .object 3 [("k", .int 5)])],
          .object 2 [("a", .object 3 [("k", .int 5)])]] := by
  have ht : sharing.root.target [.index 0, .field "a", .field "k"]
      = .ok [⟨3, .field "k"⟩] := by
    rw [root_sharing]
    rfl
  obtain ⟨hr, hroot⟩ := setPath_of_target (c := .json (.int 5)) rfl parse_first ht
  refine ⟨hr, hroot.trans ?_⟩
  rw [root_sharing]
  rfl

theorem value_after_setPath_sharing :
    (sharing.setPath (.string ".[0].a.k") (.json (.int 5))).result = .ok true ∧
      (∀ q ∈ sharing.value.addressed [.index 0, .field "a", .field "k"],
        (sharing.setPath (.string ".[0].a.k") (.json (.int 5))).document.value.at? q
          = some (.int 5)) ∧
      ((sharing.setPath (.string ".[0].a.k") (.json (.int 5))).document.value
          = Json.putAll (sharing.value.addressed [.index 0, .field "a", .field "k"])
            (.int 5) sharing.value ↔
        ∀ q, sharing.Writes [.index 0, .field "a", .field "k"] q →
          q ∈ sharing.value.addressed [.index 0, .field "a", .field "k"] ∨
            sharing.value.at? q = some (.int 5)) :=
  ⟨setPath_sharing.1,
    value_after_setPath properReachable_sharing rfl parse_first setPath_sharing.1⟩

/-- **A write may show elsewhere.**  After one object has been assigned to two
members, an assignment inside one of them changes the other. -/
theorem setPath_shows_elsewhere :
    sharing.ProperReachable ∧
      Path.parse ".[0].a.k" = .ok [.index 0, .field "a", .field "k"] ∧
      (sharing.setPath (.string ".[0].a.k") (.json (.int 5))).result = .ok true ∧
      sharing.value.addressed [.index 0, .field "a", .field "k"]
        = [[.index 0, .field "a", .field "k"]] ∧
      sharing.value.at? [.index 1, .field "a", .field "k"] = some (.int 0) ∧
      (sharing.setPath (.string ".[0].a.k") (.json (.int 5))).document.value.at?
        [.index 1, .field "a", .field "k"] = some (.int 5) := by
  refine ⟨properReachable_sharing, parse_first, setPath_sharing.1, ?_, ?_, ?_⟩
  · rw [value, root_sharing]
    rfl
  · rw [value, root_sharing]
    rfl
  · rw [value, setPath_sharing.2]
    rfl

/-! ### Sharing -/

/-- A call that assigns a container to at most one position. -/
def Spares (d : Document) : Call → Prop
  | .set path c => ∀ v steps, c.check = .ok v → Path.ofJson path = .ok steps →
      v.mark? = none ∨ (d.value.addressed steps).length ≤ 1
  | _ => True

theorem mark?_withMarks {v : Json} (h : v.mark? = none) (n : Nat) :
    (v.withMarks n).1.mark? = none := by
  cases v <;> first | rfl | cases h

/-- Nothing is shared in a document as long as no container is assigned to several
positions at once. -/
theorem ReachableBy.unshared {d : Document}
    (h : d.ReachableBy Candidate.Proper fun d c => c.Proper ∧ d.Spares c) :
    d.root.Unshared := by
  refine h.invariant (I := fun root _ => root.Unshared)
    (fun v _ => Value.unshared_of_nodup (Value.nodup_marks_withMarks v 0))
    fun d path c v steps e hd hu hs hv hp he => ?_
  have hnew := Value.unshared_of_nodup (Value.nodup_marks_withMarks v d.next)
  obtain ⟨-, ⟨-, -, hroot⟩ | ⟨slots, ht, hroot⟩⟩ := assigned_eq_ok he
  · rwa [hroot]
  · rw [hroot]
    refine hu.write hnew (fun m hm => hd.sound.notMem_withMarks v hm) ?_
    rcases hs.2 v steps hv hp with hnone | hlen
    · exact .inl (mark?_withMarks hnone d.next)
    · -- as many slots as addressed positions, so at most one
      obtain ⟨l, -, rfl, ha⟩ := Value.addressed_of_target ht
      have hl : l.length ≤ 1 := by rwa [value, ha, List.length_map] at hlen
      right
      intro s hs s' hs'
      match l, hl with
      | [], _ => cases hs
      | [t], _ => rw [List.mem_singleton.1 hs, List.mem_singleton.1 hs']

/-- **Without sharing every assignment is the update of a plain tree.** -/
theorem value_after_setPath_of_sparing {d : Document}
    (hd : d.ReachableBy Candidate.Proper fun d c => c.Proper ∧ d.Spares c) {path : String}
    {c : Candidate} {v : Json} {steps : List Step} (hc : c.check = .ok v)
    (hp : Path.parse path = .ok steps)
    (h : (d.setPath (.string path) c).result = .ok true) :
    (d.setPath (.string path) c).document.value
      = Json.putAll (d.value.addressed steps) v d.value := by
  have hv := Value.erase_json_withMarks v d.next
  obtain ⟨-, ⟨rfl, -, hroot⟩ | ⟨slots, ht, hroot⟩⟩ :=
    assigned_eq_ok (assigned_of_setPath hc hp h)
  · have hafter : (d.setPath (.string path) c).document.value = v :=
      (congrArg Value.erase hroot).trans hv
    exact hafter.trans (Json.putAll_of_mem List.mem_cons_self _).symm
  · -- the slots lie at the addressed positions only
    have hdist := hd.distinct fun _ _ h => h.1
    have hiff := Value.erase_write_eq_putAll_iff (v.withMarks d.next).1 hd.sound.consistent
      hdist ht
    rw [hv] at hiff
    refine (congrArg Value.erase hroot).trans (hiff.2 fun q hq => ?_)
    exact .inl (Value.mem_addressed_of_unshared hdist hd.unshared ht hq)

end Document

end JsonPaths
