/-
JsonPaths/Proofs/Path/Gathered.lean

Walking with items and slots side by side.

While a walk gathers, the slot of an element is told by the kind of the element, and whether
an item is a gathered list by the kind of what was found.  Both come to the same: an object
gives a value of the document and a slot, a list gives a gathered list and none
(`read_ofValue`).  So the walk with lists of items and slots is the walk over hits
(`walk_held`), and the slots that a last index addresses are the same (`indexSlots_held`).
What was gathered on the way is not empty, and was gathered from a list (`Solid`).
-/
import JsonPaths.Path.Gathered
import JsonPaths.Proofs.Path.Found

namespace JsonPaths

variable {μ : Type}

/-! ### JSON values -/

namespace Held

theorem ofItems_eq_map (l : List (Value μ)) : ofItems l = l.map ofValue := by
  induction l with
  | nil => rfl
  | cons v vs ih => exact congrArg (ofValue v :: ·) ih

theorem ofMembers_eq_map (l : List (String × Value μ)) :
    ofMembers l = l.map fun p => (p.1, ofValue p.2) := by
  induction l with
  | nil => rfl
  | cons p ms ih => exact congrArg ((p.1, ofValue p.2) :: ·) ih

theorem ofValue_array (m : μ) (items : List (Value μ)) :
    ofValue (.array m items) = .array m (items.map ofValue) :=
  congrArg (array m) (ofItems_eq_map items)

theorem ofValue_object (m : μ) (ms : List (String × Value μ)) :
    ofValue (.object m ms) = .object m (ms.map fun p => (p.1, ofValue p.2)) :=
  congrArg (object m) (ofMembers_eq_map ms)

/-! ### Taking a field in a list -/

/-- What a field comes to in an element of a list, with the slot that stands beside it. -/
def read (name : String) (v : Held μ) : Option (Held μ × Option (Slot μ)) :=
  (v.field name).map fun w => (w, v.slot? name)

theorem fieldAll_eq (name : String) (items : List (Held μ)) (slots : List (Option (Slot μ)))
    (vs : List (Held μ)) :
    fieldAll name items slots vs = (items ++ (vs.filterMap (read name)).map Prod.fst,
      slots ++ (vs.filterMap (read name)).map Prod.snd) := by
  -- the items and the slots so far change along the list
  induction vs generalizing items slots with
  | nil => simp [fieldAll]
  | cons v vs ih =>
    rw [fieldAll, List.filterMap_cons]
    cases h : v.field name with
    | none =>
      have hread : read name v = none := by rw [read, h]; rfl
      rw [hread]
      exact ih items slots
    | some w =>
      have hread : read name v = some (w, v.slot? name) := by rw [read, h]; rfl
      rw [hread]
      show fieldAll name (items ++ [w]) (slots ++ [v.slot? name]) vs = _
      rw [ih]
      simp

/-- The elements of a list, be it an array or gathered. -/
def elements? : Held μ → Option (List (Held μ))
  | .array _ items | .gathered items _ => some items
  | _ => none

/-- A field of a list is gathered from its elements. -/
theorem field_of_elements {l : Held μ} {es : List (Held μ)} (h : l.elements? = some es)
    (name : String) :
    l.field name = gather ((es.filterMap (read name)).map Prod.fst,
      (es.filterMap (read name)).map Prod.snd) := by
  cases l with
  | array m items | gathered items slots =>
    obtain rfl := Option.some.inj h
    rw [field, fieldAll_eq]
    rfl
  | _ => cases h

theorem gather_eq_some {items : List (Held μ)} {slots : List (Option (Slot μ))} {v : Held μ} :
    gather (items, slots) = some v ↔ items ≠ [] ∧ v = .gathered items slots := by
  cases items with
  | nil => exact iff_of_false nofun fun h => h.1 rfl
  | cons w ws =>
    constructor
    · intro h
      exact ⟨List.cons_ne_nil w ws, (Option.some.inj h).symm⟩
    · rintro ⟨-, rfl⟩
      rfl

/-- An item of a gathered list was found in an element, and its slot is that of the element. -/
theorem exists_element {l : Held μ} {es items : List (Held μ)} {slots : List (Option (Slot μ))}
    {name : String} {i : Nat} {item : Held μ} (hl : l.elements? = some es)
    (h : l.field name = some (.gathered items slots)) (hi : items[i]? = some item) :
    ∃ e ∈ es, e.field name = some item ∧ slots[i]? = some (e.slot? name) := by
  rw [field_of_elements hl, gather_eq_some] at h
  obtain ⟨hitems, hslots⟩ := Held.gathered.inj h.2
  rw [hitems, List.getElem?_map, Option.map_eq_some_iff] at hi
  obtain ⟨p, hp, rfl⟩ := hi
  obtain ⟨e, he, hread⟩ := List.mem_filterMap.1 (List.mem_of_getElem? hp)
  obtain ⟨w, hw, rfl⟩ := Option.map_eq_some_iff.1 hread
  refine ⟨e, he, hw, ?_⟩
  rw [hslots, List.getElem?_map, hp]
  rfl

end Held

/-! ### Hits as a walk holds them -/

namespace Hit

mutual

/-- A hit as a walk holds it. -/
def held : Hit μ (Value μ) → Held μ
  | .member _ _ v => .ofValue v
  | .gathered hs => .gathered (heldAll hs) (hs.map source)

/-- Hits as a walk holds them. -/
def heldAll : List (Hit μ (Value μ)) → List (Held μ)
  | [] => []
  | h :: hs => h.held :: heldAll hs

end

theorem heldAll_eq_map (hs : List (Hit μ (Value μ))) : heldAll hs = hs.map held := by
  induction hs with
  | nil => rfl
  | cons h hs ih => exact congrArg (h.held :: ·) ih

theorem held_gathered (hs : List (Hit μ (Value μ))) :
    (gathered hs).held = .gathered (hs.map held) (hs.map source) :=
  congrArg (Held.gathered · (hs.map source)) (heldAll_eq_map hs)

/-- A hit as a walk holds it, with the slot that stands beside it. -/
def pair (h : Hit μ (Value μ)) : Held μ × Option (Slot μ) := (h.held, h.source)

theorem gather_pairs (hs : List (Hit μ (Value μ))) :
    Held.gather ((hs.map pair).map Prod.fst, (hs.map pair).map Prod.snd) =
      (gather hs).map held := by
  rw [List.map_map, List.map_map]
  cases hs with
  | nil => rfl
  | cons h hs => exact congrArg some (held_gathered (h :: hs)).symm

end Hit

namespace Held

/-- A field of a list of which each element reads as a hit. -/
theorem read_of_elements {α : Type} {l : Held μ} {as : List α} {f : α → Held μ}
    {pick : α → Option (Hit μ (Value μ))} {name : String}
    (hl : l.elements? = some (as.map f))
    (h : ∀ a ∈ as, (f a).read name = (pick a).map Hit.pair) :
    l.read name = (Hit.gather (as.filterMap pick)).map Hit.pair := by
  have hslot : l.slot? name = none := by
    cases l with
    | object m ms => cases hl
    | _ => rfl
  have hpairs : (as.map f).filterMap (read name) = (as.filterMap pick).map Hit.pair := by
    rw [List.filterMap_map, List.map_filterMap]
    exact List.filterMap_congr h
  rw [read, field_of_elements hl, hslot, hpairs, Hit.gather_pairs, Option.map_map]
  -- beside what a list comes to stands no slot, and a gathered hit has none
  refine Option.map_congr fun g hg => ?_
  obtain ⟨-, rfl⟩ := Hit.gather_eq_some.1 hg
  rfl

/-- **The slot is told by the kind of the element, and whether the item is gathered by what
was found; both come to what the hit says.** -/
theorem read_ofValue (name : String) (v : Value μ) :
    (ofValue v).read name = (v.pick name).map Hit.pair := by
  induction v using Value.ind with
  | null | bool | int | double | string => rfl
  | array m items ih =>
    rw [Value.pick_array]
    exact read_of_elements (congrArg elements? (ofValue_array m items)) ih
  | object m ms ih =>
    rw [ofValue_object, Value.pick_object, Option.map_map]
    show ((ms.map fun p => (p.1, ofValue p.2)).lookup name).map _ = _
    rw [Assoc.lookup_map, Option.map_map]
    rfl

theorem read_held (name : String) (h : Hit μ (Value μ)) :
    h.held.read name = (h.pick name).map Hit.pair := by
  induction h using Hit.ind with
  | member m n v => exact read_ofValue name v
  | gathered hs ih =>
    rw [Hit.pick_gathered]
    exact read_of_elements (congrArg elements? (Hit.held_gathered hs)) ih

theorem map_fst_read (name : String) (v : Held μ) :
    (v.read name).map Prod.fst = v.field name := by
  rw [read, Option.map_map]
  exact Option.map_id'

theorem field_ofValue (name : String) (v : Value μ) :
    (ofValue v).field name = (v.pick name).map Hit.held := by
  rw [← map_fst_read, read_ofValue, Option.map_map]
  rfl

theorem field_held (name : String) (h : Hit μ (Value μ)) :
    h.held.field name = (h.pick name).map Hit.held := by
  rw [← map_fst_read, read_held, Option.map_map]
  rfl

end Held

/-! ### Places as a walk holds them -/

namespace Place

/-- A place as a walk holds it. -/
def held : Place μ (Value μ) → Held μ
  | .value v => .ofValue v
  | .hits hs => (Hit.gathered hs).held

theorem held_place (h : Hit μ (Value μ)) : h.place.held = h.held := by
  cases h with
  | member m name v => rfl
  | gathered hs => rfl

theorem step_held (s : Step) (p : Place μ (Value μ)) :
    p.held.step s = (p.step s).map held := by
  have hplace : held ∘ Hit.place = Hit.held (μ := μ) := by
    funext h
    exact held_place h
  cases s with
  | field name =>
    cases p with
    | value v =>
      rw [step_value_field, Option.map_map, hplace]
      exact Held.field_ofValue name v
    | hits hs =>
      rw [step_hits_field, Option.map_map, hplace]
      exact Held.field_held name (.gathered hs)
  | index i =>
    cases p with
    | value v =>
      cases v with
      | array m items =>
        show (Held.ofValue (.array m items)).index i = _
        rw [Held.ofValue_array, step_array_index, Option.map_map]
        exact List.getElem?_map
      | _ => rfl
    | hits hs =>
      show (Hit.gathered hs).held.index i = _
      rw [Hit.held_gathered, step_hits_index, Option.map_map, hplace]
      exact List.getElem?_map

/-- **The walk with items and slots side by side is the walk over hits.** -/
theorem walk_held (p : Place μ (Value μ)) (n : Nat) (steps : List Step) :
    p.held.walk n steps = (p.walk n steps).map held := by
  induction steps generalizing p n with
  | nil => rfl
  | cons s ss ih =>
    rw [Held.walk, walk_cons, step_held]
    cases p.step s with
    | none => rfl
    | some q => exact ih q (n + 1)

theorem indexSlots_held (i : Nat) (p : Place μ (Value μ)) :
    p.held.indexSlots i = p.indexSlots i := by
  cases p with
  | value v =>
    cases v with
    | array m items =>
      show (Held.ofValue (.array m items)).indexSlots i = _
      rw [Held.ofValue_array, Held.indexSlots, List.length_map]
      rfl
    | _ => rfl
  | hits hs =>
    show (Hit.gathered hs).held.indexSlots i = (hs[i]?.bind Hit.source).toList
    rw [Hit.held_gathered, Held.indexSlots, List.length_map, List.getElem?_map]
    -- the bound is tested before the slot is taken; behind it there is none
    by_cases hi : i < hs.length
    · rw [if_pos hi, List.getElem?_eq_getElem hi]
      rfl
    · rw [if_neg hi, List.getElem?_eq_none (Nat.le_of_not_lt hi)]
      rfl

end Place

/-! ### What is gathered is not empty -/

/-- A hit in which nothing that was gathered is empty, and everything that was gathered was
gathered from a list. -/
inductive Hit.Solid : Hit μ (Value μ) → Prop
  | member (m : μ) (name : String) (v : Value μ) : Solid (.member m name v)
  | gathered {hs : List (Hit μ (Value μ))} {l : Held μ} {es : List (Held μ)} {name : String} :
      hs ≠ [] → (∀ h ∈ hs, Solid h) → l.elements? = some es →
      l.field name = some (Hit.gathered hs).held → Solid (.gathered hs)

namespace Hit

theorem Solid.of_gathered {hs : List (Hit μ (Value μ))} (h : (Hit.gathered hs).Solid) :
    ∀ h ∈ hs, h.Solid := by
  cases h with
  | gathered _ h _ _ => exact h

end Hit

/-- A list gathered from solid hits is solid. -/
theorem Hit.solid_of_gather {α : Type} {l : Held μ} {es : List (Held μ)} {name : String}
    {as : List α} {pick : α → Option (Hit μ (Value μ))} {h : Hit μ (Value μ)}
    (hl : l.elements? = some es) (hfield : l.field name = some h.held)
    (hg : gather (as.filterMap pick) = some h)
    (has : ∀ a ∈ as, ∀ h', pick a = some h' → h'.Solid) : h.Solid := by
  obtain ⟨hne, rfl⟩ := gather_eq_some.1 hg
  refine .gathered hne ?_ hl hfield
  intro g hg
  obtain ⟨a, ha, hp⟩ := List.mem_filterMap.1 hg
  exact has a ha g hp

theorem Value.solid_of_pick {name : String} {v : Value μ} {h : Hit μ (Value μ)}
    (hp : v.pick name = some h) : h.Solid := by
  induction v using Value.ind generalizing h with
  | null | bool | int | double | string => cases hp
  | array m items ih =>
    have hfield := Held.field_ofValue name (.array m items)
    rw [hp] at hfield
    rw [pick_array] at hp
    exact Hit.solid_of_gather (congrArg Held.elements? (Held.ofValue_array m items)) hfield hp
      fun w hw _ hp => ih w hw hp
  | object m ms _ =>
    rw [pick_object, Option.map_eq_some_iff] at hp
    obtain ⟨w, -, rfl⟩ := hp
    exact .member m name w

theorem Hit.solid_of_pick {name : String} {h h' : Hit μ (Value μ)}
    (hp : h.pick name = some h') : h'.Solid := by
  induction h using Hit.ind generalizing h' with
  | member m n v => exact Value.solid_of_pick hp
  | gathered hs ih =>
    have hfield := Held.field_held name (gathered hs)
    rw [hp] at hfield
    rw [pick_gathered] at hp
    exact solid_of_gather (congrArg Held.elements? (held_gathered hs)) hfield hp
      fun g hg _ hp => ih g hg hp

namespace Place

/-- A place that is a value, or hits in which what was gathered is not empty. -/
def Solid : Place μ (Value μ) → Prop
  | .value _ => True
  | .hits hs => (Hit.gathered hs).Solid

theorem Solid.of_hit {h : Hit μ (Value μ)} (hs : h.Solid) : h.place.Solid := by
  cases h with
  | member m name v => trivial
  | gathered hs' => exact hs

theorem Solid.step {s : Step} {p q : Place μ (Value μ)} (hp : p.Solid)
    (hs : p.step s = some q) : q.Solid := by
  cases s with
  | field name =>
    cases p with
    | value v =>
      obtain ⟨h, hh, rfl⟩ := Option.map_eq_some_iff.1 hs
      exact .of_hit (Value.solid_of_pick hh)
    | hits hs' =>
      obtain ⟨h, hh, rfl⟩ := Option.map_eq_some_iff.1 hs
      have hh : (Hit.gathered hs').pick name = some h := hh
      exact .of_hit (Hit.solid_of_pick hh)
  | index i =>
    cases p with
    | value v =>
      cases v with
      | array m items =>
        obtain ⟨w, -, rfl⟩ := Option.map_eq_some_iff.1 hs
        trivial
      | _ => cases hs
    | hits hs' =>
      obtain ⟨h, hh, rfl⟩ := Option.map_eq_some_iff.1 hs
      exact .of_hit (Hit.Solid.of_gathered hp h (List.mem_of_getElem? hh))

theorem Solid.walk {n : Nat} {steps : List Step} {p q : Place μ (Value μ)} (hp : p.Solid)
    (hw : p.walk n steps = .ok q) : q.Solid := by
  induction steps generalizing p n with
  | nil =>
    obtain rfl : p = q := Except.ok.inj hw
    exact hp
  | cons s ss ih =>
    rw [walk_cons] at hw
    cases hs : p.step s with
    | none =>
      rw [hs] at hw
      cases hw
    | some r =>
      rw [hs] at hw
      exact ih (hp.step hs) hw

end Place

end JsonPaths
