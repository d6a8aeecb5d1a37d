/-
JsonPaths/Proofs/Path/Relabel.lean

Paths do not look at marks.

`v.relabel f` is `v` with the mark `f m` in the place of every mark `m`.  What a
path reaches, and which slots it addresses, depends on the marks only in that
it names them, so both commute with relabelling (`reach_relabel`,
`target_relabel`).  Forgetting all marks is one such relabelling, and reading a
path in the JSON value of a tree gives what reading it in the tree gives
(`query_erase`).
-/
import JsonPaths.Proofs.Path.Found

namespace JsonPaths

variable {μ ν ξ α β : Type}

/-! ### Values -/

namespace Value

mutual

/-- The tree with other marks. -/
def relabel (f : μ → ν) : Value μ → Value ν
  | .null => .null
  | .bool b => .bool b
  | .int n => .int n
  | .double x => .double x
  | .string s => .string s
  | .array m items => .array (f m) (relabelItems f items)
  | .object m members => .object (f m) (relabelMembers f members)

/-- The items of an array with other marks. -/
def relabelItems (f : μ → ν) : List (Value μ) → List (Value ν)
  | [] => []
  | v :: vs => v.relabel f :: relabelItems f vs

/-- The members of an object with other marks. -/
def relabelMembers (f : μ → ν) : List (String × Value μ) → List (String × Value ν)
  | [] => []
  | (k, v) :: ms => (k, v.relabel f) :: relabelMembers f ms

end

theorem relabelItems_eq_map (f : μ → ν) (l : List (Value μ)) :
    relabelItems f l = l.map (relabel f) := by
  induction l with
  | nil => rfl
  | cons v vs ih => exact congrArg (v.relabel f :: ·) ih

theorem relabelMembers_eq_map (f : μ → ν) (l : List (String × Value μ)) :
    relabelMembers f l = l.map fun p => (p.1, p.2.relabel f) := by
  induction l with
  | nil => rfl
  | cons p ms ih => exact congrArg ((p.1, p.2.relabel f) :: ·) ih

theorem relabel_array (f : μ → ν) (m : μ) (items : List (Value μ)) :
    (array m items).relabel f = .array (f m) (items.map (relabel f)) :=
  congrArg (Value.array (f m)) (relabelItems_eq_map f items)

theorem relabel_object (f : μ → ν) (m : μ) (ms : List (String × Value μ)) :
    (object m ms).relabel f = .object (f m) (ms.map fun p => (p.1, p.2.relabel f)) :=
  congrArg (Value.object (f m)) (relabelMembers_eq_map f ms)

theorem erase_array (m : μ) (items : List (Value μ)) :
    (array m items).erase = .array () (items.map erase) :=
  congrArg (Value.array ()) (eraseItems_eq_map items)

theorem erase_object (m : μ) (ms : List (String × Value μ)) :
    (object m ms).erase = .object () (ms.map fun p => (p.1, p.2.erase)) :=
  congrArg (Value.object ()) (eraseMembers_eq_map ms)

/-- Forgetting the marks is giving every container the same one. -/
theorem erase_eq_relabel (v : Value μ) : v.erase = v.relabel fun _ => () := by
  induction v using Value.ind with
  | null | bool | int | double | string => rfl
  | array m items ih =>
    rw [erase_array, relabel_array, List.map_congr_left ih]
  | object m ms ih =>
    rw [erase_object, relabel_object,
      List.map_congr_left fun p hp => by rw [ih p hp]]

theorem relabel_relabel (f : μ → ν) (g : ν → ξ) (v : Value μ) :
    (v.relabel f).relabel g = v.relabel (g ∘ f) := by
  induction v using Value.ind with
  | null | bool | int | double | string => rfl
  | array m items ih =>
    simp only [relabel_array, List.map_map, Function.comp_apply]
    rw [List.map_congr_left fun v hv => by exact ih v hv]
  | object m ms ih =>
    simp only [relabel_object, List.map_map, Function.comp_apply]
    rw [List.map_congr_left fun p hp => by
      exact congrArg (Prod.mk p.1) (ih p hp)]

theorem erase_relabel (f : μ → ν) (v : Value μ) : (v.relabel f).erase = v.erase := by
  rw [erase_eq_relabel, erase_eq_relabel, relabel_relabel,
    Function.comp_def]

@[simp] theorem erase_json (v : Json) : v.erase = v := by
  induction v using Value.ind with
  | null | bool | int | double | string => rfl
  | array m items ih =>
    rw [erase_array, List.map_congr_left ih, List.map_id']
  | object m ms ih =>
    rw [erase_object, List.map_congr_left fun p hp => by rw [ih p hp],
      List.map_id']

/-- Fresh marks do not change the JSON value. -/
theorem erase_withMarks (v : Value μ) (n : Nat) : (v.withMarks n).1.erase = v.erase := by
  induction v using Value.ind generalizing n with
  | null | bool | int | double | string => rfl
  | array m items ih =>
    -- the counter runs on from item to item, so it is free in the inner induction
    have key : ∀ n, (markItems n items).1.map erase = items.map erase := by
      induction items with
      | nil => exact fun n => rfl
      | cons v vs ihs =>
        intro n
        have hvs := ihs (fun w hw => ih w (List.mem_cons_of_mem _ hw)) (v.withMarks n).2
        show (v.withMarks n).1.erase :: (markItems _ vs).1.map erase = v.erase :: vs.map erase
        rw [ih v List.mem_cons_self n, hvs]
    rw [erase_array, ← key (n + 1)]
    exact erase_array n (markItems (n + 1) items).1
  | object m ms ih =>
    have key : ∀ n, (markMembers n ms).1.map (fun p => (p.1, p.2.erase))
        = ms.map fun p => (p.1, p.2.erase) := by
      induction ms with
      | nil => exact fun n => rfl
      | cons p ms ihs =>
        intro n
        have hms := ihs (fun w hw => ih w (List.mem_cons_of_mem _ hw)) (p.2.withMarks n).2
        show (p.1, (p.2.withMarks n).1.erase) :: (markMembers _ ms).1.map _
          = (p.1, p.2.erase) :: ms.map _
        rw [ih p List.mem_cons_self n, hms]
    rw [erase_object, ← key (n + 1)]
    exact erase_object n (markMembers (n + 1) ms).1

theorem erase_json_withMarks (v : Json) (n : Nat) : (v.withMarks n).1.erase = v := by
  rw [erase_withMarks, erase_json]

end Value

/-! ### Hits and places -/

mutual

/-- A hit with its object renamed by `f` and its value changed by `g`, which may
look at the object and the name. -/
def Hit.map (f : μ → ν) (g : μ → String → α → β) : Hit μ α → Hit ν β
  | .member m name v => .member (f m) name (g m name v)
  | .gathered hs => .gathered (Hit.mapAll f g hs)

/-- Hits in a row, each changed. -/
def Hit.mapAll (f : μ → ν) (g : μ → String → α → β) : List (Hit μ α) → List (Hit ν β)
  | [] => []
  | h :: hs => h.map f g :: Hit.mapAll f g hs

end

theorem Hit.mapAll_eq_map (f : μ → ν) (g : μ → String → α → β) (l : List (Hit μ α)) :
    Hit.mapAll f g l = l.map (Hit.map f g) := by
  induction l with
  | nil => rfl
  | cons h hs ih => exact congrArg (h.map f g :: ·) ih

theorem Hit.map_gathered (f : μ → ν) (g : μ → String → α → β) (hs : List (Hit μ α)) :
    (Hit.gathered hs).map f g = .gathered (hs.map (Hit.map f g)) :=
  congrArg Hit.gathered (mapAll_eq_map f g hs)

theorem Hit.gather_map (f : μ → ν) (g : μ → String → α → β) (hs : List (Hit μ α)) :
    gather (hs.map (Hit.map f g)) = (gather hs).map (Hit.map f g) := by
  cases hs with
  | nil => rfl
  | cons h hs => exact congrArg some (map_gathered f g (h :: hs)).symm

/-- A place with other marks. -/
def Place.relabel (f : μ → ν) : Place μ (Value μ) → Place ν (Value ν)
  | .value v => .value (v.relabel f)
  | .hits hs => .hits (hs.map (Hit.map f fun _ _ v => v.relabel f))

/-- A slot with other marks. -/
def Slot.relabel (f : μ → ν) (s : Slot μ) : Slot ν := ⟨f s.owner, s.step⟩

theorem Hit.place_relabel (f : μ → ν) (h : Hit μ (Value μ)) :
    (h.map f fun _ _ v => v.relabel f).place = h.place.relabel f := by
  cases h with
  | member m name v => rfl
  | gathered hs => rw [map_gathered]; rfl

/-! ### Reading -/

theorem Value.pick_relabel (f : μ → ν) (name : String) (v : Value μ) :
    (v.relabel f).pick name = (v.pick name).map (Hit.map f fun _ _ v => v.relabel f) := by
  induction v using Value.ind with
  | null | bool | int | double | string => rfl
  | array m items ih =>
    rw [relabel_array, pick_array, pick_array, List.filterMap_map, ← Hit.gather_map,
      List.map_filterMap]
    exact congrArg Hit.gather (List.filterMap_congr ih)
  | object m ms _ =>
    rw [relabel_object, pick_object, pick_object, Assoc.lookup_map, Option.map_map,
      Option.map_map]
    rfl

theorem Hit.pick_relabel (f : μ → ν) (name : String) (h : Hit μ (Value μ)) :
    (h.map f fun _ _ v => v.relabel f).pick name
      = (h.pick name).map (Hit.map f fun _ _ v => v.relabel f) := by
  induction h using Hit.ind with
  | member m n v => exact Value.pick_relabel f name v
  | gathered hs ih =>
    rw [map_gathered, pick_gathered, pick_gathered, List.filterMap_map, ← gather_map,
      List.map_filterMap]
    exact congrArg Hit.gather (List.filterMap_congr ih)

namespace Place

theorem step_relabel (f : μ → ν) (s : Step) (p : Place μ (Value μ)) :
    (p.relabel f).step s = (p.step s).map (relabel f) := by
  cases s with
  | field name =>
    have hplace : ∀ h : Option (Hit μ (Value μ)),
        (h.map (Hit.map f fun _ _ v => v.relabel f)).map Hit.place
          = (h.map Hit.place).map (relabel f) := by
      intro h
      cases h with
      | none => rfl
      | some h => exact congrArg some (Hit.place_relabel f h)
    cases p with
    | value v =>
      show (value (v.relabel f)).step (.field name) = _
      rw [step_value_field, step_value_field, Value.pick_relabel, hplace]
    | hits hs =>
      show (hits _).step (.field name) = _
      rw [step_hits_field, step_hits_field, ← Hit.map_gathered, Hit.pick_relabel, hplace]
  | index i =>
    cases p with
    | value v =>
      cases v with
      | array m items =>
        show (value ((Value.array m items).relabel f)).step (.index i) = _
        rw [Value.relabel_array, step_array_index, step_array_index, List.getElem?_map,
          Option.map_map, Option.map_map]
        rfl
      | object m ms => rfl
      | _ => rfl
    | hits hs =>
      show (hits _).step (.index i) = _
      rw [step_hits_index, step_hits_index, List.getElem?_map, Option.map_map, Option.map_map]
      exact congrArg (fun g => Option.map g hs[i]?) (funext (Hit.place_relabel f))

theorem walk_relabel (f : μ → ν) (steps : List Step) (p : Place μ (Value μ)) (n : Nat) :
    (p.relabel f).walk n steps = (p.walk n steps).map (relabel f) := by
  induction steps generalizing p n with
  | nil => rfl
  | cons s ss ih =>
    rw [walk_cons, walk_cons, step_relabel]
    cases p.step s with
    | none => rfl
    | some q => exact ih q (n + 1)

end Place

/-- What a path reaches does not depend on the marks. -/
theorem Value.reach_relabel (f : μ → ν) (root : Value μ) (steps : List Step) :
    (root.relabel f).reach steps = (root.reach steps).map (Place.relabel f) :=
  Place.walk_relabel f steps (.value root) 0

theorem Hit.plain_relabel (f : μ → ν) (h : Hit μ (Value μ)) :
    (h.map f fun _ _ v => v.relabel f).plain = h.plain := by
  induction h using Hit.ind with
  | member m name v => exact Value.erase_relabel f v
  | gathered hs ih =>
    rw [map_gathered, plain_gathered, plain_gathered, List.map_map]
    exact congrArg (Value.array ()) (List.map_congr_left ih)

theorem Place.plain_relabel (f : μ → ν) (p : Place μ (Value μ)) :
    (p.relabel f).plain = p.plain := by
  cases p with
  | value v => exact Value.erase_relabel f v
  | hits hs =>
    have h := Hit.plain_relabel f (.gathered hs)
    rwa [Hit.map_gathered] at h

theorem Value.query_relabel (f : μ → ν) (root : Value μ) (steps : List Step) :
    (root.relabel f).query steps = root.query steps := by
  show ((root.relabel f).reach steps).map Place.plain = (root.reach steps).map Place.plain
  rw [reach_relabel]
  cases root.reach steps with
  | error o => rfl
  | ok p => exact congrArg Except.ok (Place.plain_relabel f p)

/-- Reading a path in the JSON value of a tree is reading it in the tree. -/
theorem Value.query_erase (root : Value μ) (steps : List Step) :
    root.erase.query steps = root.query steps := by
  rw [erase_eq_relabel, query_relabel]

/-! ### Writing -/

theorem Value.slots_relabel (f : μ → ν) (name : String) (v : Value μ) :
    (v.relabel f).slots name = (v.slots name).map (Slot.relabel f) := by
  induction v using Value.ind with
  | null | bool | int | double | string => rfl
  | array m items ih =>
    rw [relabel_array, slots_array, slots_array, List.flatMap_map, List.map_flatMap]
    exact List.flatMap_congr ih
  | object m ms _ =>
    rw [relabel_object, slots_object, slots_object, Assoc.lookup_map, Option.isSome_map]
    split <;> rfl

theorem Hit.slots_relabel (f : μ → ν) (name : String) (h : Hit μ (Value μ)) :
    (h.map f fun _ _ v => v.relabel f).slots name = (h.slots name).map (Slot.relabel f) := by
  induction h using Hit.ind with
  | member m n v => exact Value.slots_relabel f name v
  | gathered hs ih =>
    rw [map_gathered, slots_gathered, slots_gathered, List.flatMap_map, List.map_flatMap]
    exact List.flatMap_congr ih

theorem Place.slots_relabel (f : μ → ν) (last : Step) (p : Place μ (Value μ)) :
    (p.relabel f).slots last = (p.slots last).map (Slot.relabel f) := by
  cases last with
  | field name =>
    cases p with
    | value v =>
      cases v with
      | object m ms => rfl
      | array m items => exact Value.slots_relabel f name (.array m items)
      | _ => rfl
    | hits hs =>
      have h := Hit.slots_relabel f name (.gathered hs)
      rwa [Hit.map_gathered] at h
  | index i =>
    cases p with
    | value v =>
      cases v with
      | array m items =>
        show ((Value.array m items).relabel f |> Place.value).slots (.index i)
          = (if i < items.length then [⟨m, .index i⟩] else []).map (Slot.relabel f)
        rw [Value.relabel_array]
        show (if i < (items.map (Value.relabel f)).length then _ else _) = _
        rw [List.length_map]
        split <;> rfl
      | object m ms => rfl
      | _ => rfl
    | hits hs =>
      show (((hs.map (Hit.map f fun _ _ v => v.relabel f))[i]?).bind Hit.source).toList
        = ((hs[i]?).bind Hit.source).toList.map (Slot.relabel f)
      rw [List.getElem?_map]
      cases hs[i]? with
      | none => rfl
      | some h =>
        cases h with
        | member m name v => rfl
        | gathered hs => rfl

/-- The slots that a path addresses are named by their marks, and chosen without
looking at them. -/
theorem Value.target_relabel (f : μ → ν) (root : Value μ) (steps : List Step) :
    (root.relabel f).target steps = (root.target steps).map (List.map (Slot.relabel f)) := by
  unfold target
  split
  · rfl
  · rw [reach_relabel]
    cases root.reach steps.dropLast with
    | error o => rfl
    | ok p =>
      simp only [Except.map, Place.slots_relabel]
      cases p.slots _ <;> rfl

end JsonPaths
