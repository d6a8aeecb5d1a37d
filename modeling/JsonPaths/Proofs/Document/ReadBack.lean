/-
JsonPaths/Proofs/Document/ReadBack.lean

Reading a path right after an assignment to it.

An assignment that returns true is read back by its own path: as the assigned
value, or, if the last field fans out over an array, as the list of the earlier
hits with every hit replaced (`query_after_setPath`).  The document may hold one
container at several places; that its marks are consistent is enough.  The answer
is a text, so a whole number with too many digits is assigned but not read back
(`not_query_after_setPath_overlong`).
-/
import JsonPaths.Proofs.Document.Calls
import JsonPaths.Proofs.Path.ReadBack

namespace JsonPaths

variable {μ ν : Type}

/-! ### Filled hits -/

mutual

/-- The JSON value of a hit with `v` for every value that was found. -/
def Hit.filled {μ ν : Type} (v : Json) : Hit μ ν → Json
  | .member _ _ _ => v
  | .gathered hs => .array () (Hit.filledAll v hs)

/-- The JSON values of hits in a row with `v` for every value that was found. -/
def Hit.filledAll {μ ν : Type} (v : Json) : List (Hit μ ν) → List Json
  | [] => []
  | h :: hs => h.filled v :: Hit.filledAll v hs

end

theorem Hit.filledAll_eq_map (v : Json) (l : List (Hit μ ν)) :
    Hit.filledAll v l = l.map (Hit.filled v) := by
  induction l with
  | nil => rfl
  | cons h hs ih => simp [filledAll, ih]

/-- Only the nesting of a hit matters when it is filled. -/
theorem Hit.filled_map {μ' ν' : Type} (f : μ → μ') (g : μ → String → ν → ν') (v : Json)
    (h : Hit μ ν) : (h.map f g).filled v = h.filled v := by
  induction h using Hit.ind with
  | member m name w => rfl
  | gathered hs ih =>
    rw [map_gathered, filled, filled, filledAll_eq_map, filledAll_eq_map, List.map_map]
    exact congrArg (Value.array ()) (List.map_congr_left ih)

theorem Hit.plain_overwrite (new : Value μ) (h : Hit μ (Value μ)) :
    (h.map id fun _ _ _ => new).plain = h.filled new.erase := by
  induction h using Hit.ind with
  | member m name w => rfl
  | gathered hs ih =>
    rw [map_gathered, plain, filled, plainAll_eq_map, filledAll_eq_map, List.map_map]
    exact congrArg (Value.array ()) (List.map_congr_left ih)

theorem Place.plain_overwrite (new : Value μ) (hs : List (Hit μ (Value μ))) :
    (overwrite new hs).plain = .array () (hs.map (Hit.filled new.erase)) := by
  rw [overwrite, plain, Hit.plainAll_eq_map, List.map_map]
  exact congrArg (Value.array ()) (List.map_congr_left fun h _ => Hit.plain_overwrite new h)

/-! ### What is read back -/

/-- `ReadsBack before v steps j`: when `v` has been assigned at a path with these
steps, in a value that was `before`, the path reads `j`. -/
inductive ReadsBack (before v : Json) : List Step → Json → Prop
  | root : ReadsBack before v [] v
  | index (init : List Step) (i : Nat) : ReadsBack before v (init ++ [.index i]) v
  | member {init : List Step} {ms : List (String × Json)} (name : String) :
      before.query init = .ok (.object () ms) → ReadsBack before v (init ++ [.field name]) v
  | fanOut {init : List Step} {items : List Json} {hs : List (Hit Unit Json)} (name : String) :
      before.query init = .ok (.array () items) →
      before.reach (init ++ [.field name]) = .ok (.hits hs) →
      ReadsBack before v (init ++ [.field name]) (.array () (hs.map (Hit.filled v)))

theorem Hit.withinDigits_filled {v : Json} (hv : v.WithinDigits) (h : Hit μ ν) :
    (h.filled v).WithinDigits := by
  induction h using Hit.ind with
  | member m name w => exact hv
  | gathered hs ih =>
    rw [filled, filledAll_eq_map, Value.withinDigits_array_iff, List.forall_mem_map]
    exact ih

/-- What is read back can be written if what was assigned can. -/
theorem ReadsBack.withinDigits {before v j : Json} {steps : List Step}
    (h : ReadsBack before v steps j) (hv : v.WithinDigits) : j.WithinDigits := by
  cases h with
  | root | index | member => exact hv
  | @fanOut init items hs =>
    rw [Value.withinDigits_array_iff, List.forall_mem_map]
    exact fun h _ => h.withinDigits_filled hv

/-- Reading back on trees: the value is assigned with marks of its own. -/
theorem Value.readsBack_write [DecidableEq μ] {root : Value μ} (new : Value μ)
    (hc : root.Consistent) {steps : List Step} {slots : List (Slot μ)}
    (ht : root.target steps = .ok slots) :
    ∃ j, (write slots new root).query steps = .ok j ∧
      ReadsBack root.erase new.erase steps j := by
  obtain ⟨init, last, -, rfl, -⟩ := target_eq_ok ht
  obtain ⟨p, hp, ⟨hlast, hr⟩ | ⟨⟨name, rfl⟩, hlist, hs, hbefore, hafter⟩⟩ :=
    reach_write new hc ht
  · -- the last step is an index or a field of an object
    refine ⟨new.erase, by rw [query, hr]; rfl, ?_⟩
    cases last with
    | index i => exact .index init i
    | field name =>
      rcases hlast with ⟨i, hi⟩ | ⟨m, ms, rfl⟩
      · cases hi
      · exact .member name (by rw [query_erase, query, hp]; rfl)
  · -- the last field fans out; what counts of the earlier hits is their nesting, which
    -- the marks have no part in
    refine ⟨_, by rw [query, hafter]; rfl, ?_⟩
    rw [Place.plain_overwrite]
    have hreach : root.erase.reach (init ++ [.field name])
        = .ok (.hits (hs.map (Hit.map (fun _ => ()) fun _ _ v => v.relabel fun _ => ()))) := by
      rw [erase_eq_relabel, reach_relabel, hbefore]
      rfl
    have hfill : hs.map (Hit.filled new.erase)
        = (hs.map (Hit.map (fun _ => ()) fun _ _ v => v.relabel fun _ => ())).map
          (Hit.filled new.erase) := by
      rw [List.map_map]
      exact List.map_congr_left fun h _ => (Hit.filled_map _ _ _ h).symm
    rw [hfill]
    rcases hlist with ⟨m, items, rfl⟩ | ⟨hs', rfl⟩
    · exact .fanOut name (by rw [query_erase, query, hp]; rfl) hreach
    · exact .fanOut name (by rw [query_erase, query, hp]; rfl) hreach

namespace Document

theorem result_query {d : Document} {path : String} {steps : List Step} {j : Json}
    (hp : Path.parse path = .ok steps) (hq : d.root.query steps = .ok j) :
    (d.query (.string path)).result = Error.orTooLong (Json.compactText j) := by
  simp [query, Path.ofJson, hp, hq, bind, Except.bind, Except.mapError]

theorem parse_of_ofJson {path : String} {steps : List Step}
    (h : Path.ofJson (.string path) = .ok steps) : Path.parse path = .ok steps := by
  unfold Path.ofJson at h
  dsimp only at h
  split at h
  · cases h
    assumption
  · cases h
  · cases h

theorem ofJson_of_parse {path : String} {steps : List Step}
    (h : Path.parse path = .ok steps) : Path.ofJson (.string path) = .ok steps := by
  simp [Path.ofJson, h]

/-- **Read after write.**  In every reachable document, an assignment that
returns true is read back by its path, which is answered as far as what is read has a
text; it has one if the assigned value has one. -/
theorem query_after_setPath {d : Document} (hd : d.Reachable) {path : String} {c : Candidate}
    {v : Json} (hc : c.check = .ok v)
    (h : (d.setPath (.string path) c).result = .ok true) :
    ∃ steps j, Path.parse path = .ok steps ∧ ReadsBack d.value v steps j ∧
      ((d.setPath (.string path) c).document.query (.string path)).result
        = Error.orTooLong (Json.compactText j) ∧
      (v.WithinDigits → ∃ text, Json.compactText j = some text ∧
        ((d.setPath (.string path) c).document.query (.string path)).result = .ok text) := by
  obtain ⟨v', steps, e, hc', hp, ha, -, hdoc⟩ | ⟨hne, -⟩ := setPath_cases d (.string path) c
  · obtain rfl : v' = v := Except.ok.inj (hc'.symm.trans hc)
    have hp := parse_of_ofJson hp
    have hv : (v'.withMarks d.next).1.erase = v' := by
      rw [Value.erase_withMarks, Value.erase_json]
    obtain ⟨j, hj, hback⟩ : ∃ j, e.root.query steps = .ok j ∧ ReadsBack d.value v' steps j := by
      obtain ⟨-, ⟨rfl, -, hroot⟩ | ⟨slots, ht, hroot⟩⟩ := assigned_eq_ok ha
      · rw [hroot]
        exact ⟨v', congrArg Except.ok hv, .root⟩
      · obtain ⟨j, hj, hback⟩ := Value.readsBack_write (v'.withMarks d.next).1
          hd.sound.consistent ht
        exact ⟨j, hroot ▸ hj, hv ▸ hback⟩
    have hquery := result_query hp hj
    rw [hdoc]
    refine ⟨steps, j, hp, hback, hquery, fun hn => ?_⟩
    obtain ⟨text, ht⟩ := (Json.exists_write_iff .compact j).2 (hback.withinDigits hn)
    exact ⟨text, ht, hquery.trans (Error.orTooLong_of_some ht)⟩
  · exact absurd h hne

/-- The array of two objects with a member `a` each, as a document. -/
def pair : Document where
  root := .array 0 [.object 1 [("a", .int 1)], .object 2 [("a", .int 1)]]
  next := 3
  suppressErrors := .ofBool false
  suppressDiagnostics := .ofBool false
  indent := .spaces 2
  index := none

/-- The pair after one object has been assigned to both members, which it now
stands in. -/
def sharing : Document :=
  (pair.setPath (.string ".a") (.json (.object () [("k", .int 0)]))).document

theorem ofCandidate_pair : Document.ofCandidate .default ⟨none, none, some (.spaces 2)⟩
    (.json (.array () [.object () [("a", .int 1)], .object () [("a", .int 1)]])) = .ok pair :=
  rfl

theorem reachable_sharing : sharing.Reachable :=
  .call (d := pair) (.set (.string ".a") (.json (.object () [("k", .int 0)])))
    (.ofCandidate trivial ofCandidate_pair) trivial

theorem query_after_setPath_sharing :
    (sharing.setPath (.string ".a.k") (.json (.int 5))).result = .ok true ∧
      ∃ steps j, Path.parse ".a.k" = .ok steps ∧ ReadsBack sharing.value (.int 5) steps j ∧
        ((sharing.setPath (.string ".a.k") (.json (.int 5))).document.query
          (.string ".a.k")).result = Error.orTooLong (Json.compactText j) ∧
        ∃ text, Json.compactText j = some text ∧
          ((sharing.setPath (.string ".a.k") (.json (.int 5))).document.query
            (.string ".a.k")).result = .ok text := by
  have hn : (Value.int 5 : Json).WithinDigits := Value.withinDigits_int_iff.2 (by decide)
  have hset : (sharing.setPath (.string ".a.k") (.json (.int 5))).result = .ok true := rfl
  obtain ⟨steps, j, hp, hback, hquery, hok⟩ := query_after_setPath reachable_sharing rfl hset
  exact ⟨hset, steps, j, hp, hback, hquery, hok hn⟩

/-- A number that has too many digits to be written can be assigned, and its path cannot
be read then. -/
theorem not_query_after_setPath_overlong :
    pair.Reachable ∧
      (pair.setPath (.string ".[0]") (.json .overlong)).result = .ok true ∧
      ((pair.setPath (.string ".[0]") (.json .overlong)).document.query
        (.string ".[0]")).result = .error .tooLong := by
  refine ⟨.ofCandidate trivial ofCandidate_pair, rfl, ?_⟩
  have hread : (pair.setPath (.string ".[0]") (.json .overlong)).document.root.query
      [.index 0] = .ok .overlong := rfl
  have hpath : Path.parse ".[0]" = .ok [.index 0] := rfl
  rw [result_query hpath hread]
  exact Error.orTooLong_of_none ((Json.write_eq_none_iff _ _).2 Value.not_withinDigits_overlong)

end Document

end JsonPaths
