/-
JsonPaths/Proofs/Document/Overwrite.lean

Assigning twice at a path, and assigning back what it leads to.

Whether an assignment goes through is a matter of the path and the document, not of the
value (`setPath_iff`).  Of two assignments at one path the second decides the value of
the document, and a stored value that is assigned back at its path changes nothing, also
where the document holds one container at several places
(`setPath_overwrites_and_restores`).
-/
import JsonPaths.Proofs.Document.Invariant
import JsonPaths.Proofs.Path.Overwrite

namespace JsonPaths.Document

variable {d : Document} {path : String} {c c' : Candidate} {v w : Json} {steps : List Step}

/-! ### Assignments that go through -/

theorem assigned_nil (d : Document) (hv : v ≠ .null) :
    d.assigned [] v = .ok { d with
      root := (v.withMarks d.next).1, next := (v.withMarks d.next).2, index := none } := by
  cases v <;> first | rfl | exact absurd rfl hv

/-- **Whether an assignment goes through does not depend on the value**, except that the
root does not take null. -/
theorem setPath_iff (hc : c.check = .ok v) (hv : Path.parse path = .ok [] → v ≠ .null) :
    (d.setPath (.string path) c).result = .ok true ↔
      ∃ steps, Path.parse path = .ok steps ∧
        (steps = [] ∨ ∃ slots, d.root.target steps = .ok slots) := by
  constructor
  · intro h
    rcases setPath_cases d (.string path) c with ⟨_, steps, e, -, hp, ha, -, -⟩ | ⟨hne, -⟩
    · refine ⟨steps, parse_of_ofJson hp, ?_⟩
      rcases (assigned_eq_ok ha).2 with ⟨rfl, -, -⟩ | ⟨slots, ht, -⟩
      · exact .inl rfl
      · exact .inr ⟨slots, ht⟩
    · exact absurd h hne
  · rintro ⟨steps, hp, rfl | ⟨slots, ht⟩⟩
    · exact (setPath_of_assigned hc (ofJson_of_parse hp) (assigned_nil d (hv hp))).1
    · exact (setPath_of_target hc hp ht).1

theorem document_of_setPath_ne (h : (d.setPath (.string path) c).result ≠ .ok true) :
    (d.setPath (.string path) c).document = d := by
  rcases setPath_cases d (.string path) c with ⟨_, _, _, -, -, -, hok, -⟩ | ⟨-, hdoc⟩
  · exact absurd hok h
  · exact hdoc

theorem value_of_setPath_root (hc : c.check = .ok v) (hp : Path.parse path = .ok [])
    (hv : v ≠ .null) : (d.setPath (.string path) c).document.value = v := by
  rw [(setPath_of_assigned hc (ofJson_of_parse hp) (assigned_nil d hv)).2]
  exact Value.erase_json_withMarks v d.next

theorem value_of_setPath_target {slots : List (Slot Nat)} (hc : c.check = .ok v)
    (hp : Path.parse path = .ok steps) (ht : d.root.target steps = .ok slots) :
    (d.setPath (.string path) c).document.value
      = (Value.write slots (v.withMarks d.next).1 d.root).erase :=
  congrArg Value.erase (setPath_of_target hc hp ht).2

/-! ### The second assignment -/

/-- What is assigned first at a path does not matter for what an assignment to the same
slots comes to. -/
theorem value_of_setPath_setPath {slots : List (Slot Nat)} (hd : d.root.Consistent)
    (hc : c.check = .ok v) (hc' : c'.check = .ok w) (hp : Path.parse path = .ok steps)
    (ht : d.root.target steps = .ok slots) :
    ((d.setPath (.string path) c).document.setPath (.string path) c').document.value
      = (d.setPath (.string path) c').document.value := by
  obtain ⟨-, hroot⟩ := setPath_of_target (d := d) hc hp ht
  obtain ⟨last, hstep, -⟩ := Value.slots_of_target ht
  -- the second assignment finds the slots of the first, and its value has other marks
  -- than it would have had alone
  have ht' : (d.setPath (.string path) c).document.root.target steps = .ok slots := by
    rw [hroot]
    exact Value.target_write hd ht
  rw [value_of_setPath_target hc' hp ht', hroot, Value.write_write hstep,
    value_of_setPath_target hc' hp ht]
  refine Value.erase_write_congr ?_ d.root
  rw [Value.erase_json_withMarks, Value.erase_json_withMarks]

/-! ### Assigning back -/

/-- A stored value that is assigned back at its path leaves the value of the document. -/
theorem setPath_of_reach_value (hd : d.Valid) (hp : Path.parse path = .ok steps)
    {x : Shared} (hx : d.root.reach steps = .ok (.value x)) (hc : c.check = .ok x.erase) :
    (d.setPath (.string path) c).result = .ok true ∧
      (d.setPath (.string path) c).document.value = d.value := by
  rcases steps.eq_nil_or_concat' with rfl | ⟨init, last, rfl⟩
  · obtain rfl : d.root = x := Place.value.inj (Except.ok.inj hx)
    have hne : d.root.erase ≠ .null := by
      intro h
      cases hroot : d.root with
      | null => exact hd.root_ne_null hroot
      | _ => rw [hroot] at h; cases h
    exact ⟨(setPath_of_assigned hc (ofJson_of_parse hp) (assigned_nil d hne)).1,
      value_of_setPath_root hc hp hne⟩
  · obtain ⟨s, k, a, ht, ha, hm, hchild⟩ := Value.target_of_reach_value hx
    refine ⟨(setPath_of_target hc hp ht).1, ?_⟩
    rw [value_of_setPath_target hc hp ht]
    refine Value.erase_write_of_holds fun s' hs' k' a' ha' hm' => ⟨x, ?_, ?_⟩
    · -- a container with the mark of the slot is the one that was read
      obtain rfl := List.mem_singleton.1 hs'
      obtain ⟨rfl, -⟩ := hd.sound.consistent ha' ha hm' hm
      exact hchild
    · rw [Value.erase_json_withMarks]

/-! ### The main result -/

/-- **Overwriting and writing back.**  In every reachable document and for every path, two
values are both assigned or both not, and after both assignments the document has the
value that the second alone gives it.  A stored value that the path leads to is assigned
back with success and without effect. -/
theorem setPath_overwrites_and_restores (hd : d.Reachable) (hc : c.check = .ok v)
    (hc' : c'.check = .ok w) (hroot : Path.parse path = .ok [] → v ≠ .null ∧ w ≠ .null) :
    ((d.setPath (.string path) c).result = .ok true ↔
        (d.setPath (.string path) c').result = .ok true) ∧
      ((d.setPath (.string path) c).document.setPath (.string path) c').document.value
        = (d.setPath (.string path) c').document.value ∧
      ∀ steps x b, Path.parse path = .ok steps → d.root.reach steps = .ok (.value x) →
        b.check = .ok x.erase →
        (d.setPath (.string path) b).result = .ok true ∧
          (d.setPath (.string path) b).document.value = d.value := by
  have hiff := setPath_iff (d := d) hc fun hp => (hroot hp).1
  have hiff' := setPath_iff (d := d) hc' fun hp => (hroot hp).2
  refine ⟨hiff.trans hiff'.symm, ?_, fun steps x b hp hx hb => ?_⟩
  · by_cases hok : ∃ steps, Path.parse path = .ok steps ∧
        (steps = [] ∨ ∃ slots, d.root.target steps = .ok slots)
    · obtain ⟨steps, hp, rfl | ⟨slots, ht⟩⟩ := hok
      · rw [value_of_setPath_root hc' hp (hroot hp).2, value_of_setPath_root hc' hp (hroot hp).2]
      · exact value_of_setPath_setPath hd.valid.sound.consistent hc hc' hp ht
    · rw [document_of_setPath_ne (mt hiff.1 hok)]
  · exact setPath_of_reach_value hd.valid hp hx hb

/-- The second hit of the pair that shares an object is overwritten with an array and then
with a text; what it leads to, the shared object, is assigned back. -/
theorem sharing_overwritten_and_restored :
    Path.parse ".a[1]" = .ok [.field "a", .index 1] ∧
      ((sharing.setPath (.string ".a[1]") (.json (.array () []))).document.setPath
          (.string ".a[1]") (.json (.string "x"))).document.value
        = (sharing.setPath (.string ".a[1]") (.json (.string "x"))).document.value ∧
      (sharing.setPath (.string ".a[1]") (.json (.object () [("k", .int 0)]))).result
        = .ok true ∧
      (sharing.setPath (.string ".a[1]") (.json (.object () [("k", .int 0)]))).document.value
        = sharing.value := by
  have hparse : Path.parse ".a[1]" = .ok [.field "a", .index 1] := by decide +kernel
  have hreach : sharing.root.reach [.field "a", .index 1]
      = .ok (.value (.object 3 [("k", .int 0)])) := by
    rw [root_sharing]
    rfl
  have hroot : Path.parse ".a[1]" = .ok [] → (.array () [] : Json) ≠ .null ∧
      (.string "x" : Json) ≠ .null := fun _ => ⟨nofun, nofun⟩
  have hc : (Candidate.json (.array () [])).check = .ok (.array () []) := rfl
  have hc' : (Candidate.json (.string "x")).check = .ok (.string "x") := rfl
  obtain ⟨-, htwice, hback⟩ := setPath_overwrites_and_restores reachable_sharing hc hc' hroot
  obtain ⟨hok, hvalue⟩ := hback _ _ (.json (.object () [("k", .int 0)])) hparse hreach rfl
  exact ⟨hparse, htwice, hok, hvalue⟩

end JsonPaths.Document
