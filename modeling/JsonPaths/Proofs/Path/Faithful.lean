/-
JsonPaths/Proofs/Path/Faithful.lean

Gathered lists and the slots beside them.

What a walk holds is, as far down as one looks, a value of the document or a gathered list of
hits (`exists_of_part_place`).  A hit is known to be found in the document and to be solid, and
that is what `Faithful` says of the list.  The plain value of what a walk holds is the value
that the program reads (`erase_plain_place`).  The main result is `gathered_faithful`.
-/
import JsonPaths.Proofs.Except
import JsonPaths.Proofs.Path.Gathered
import JsonPaths.Proofs.Path.Relabel

namespace JsonPaths

variable {μ : Type}

/-! ### Parts -/

namespace Held

/-- `v.Part w`: `w` is `v` itself, or within it, at any depth. -/
inductive Part : Held μ → Held μ → Prop
  | here (v : Held μ) : Part v v
  | item {m : μ} {items : List (Held μ)} {v w : Held μ} :
      v ∈ items → Part v w → Part (.array m items) w
  | member {m : μ} {members : List (String × Held μ)} {name : String} {v w : Held μ} :
      (name, v) ∈ members → Part v w → Part (.object m members) w
  | gathered {items : List (Held μ)} {slots : List (Option (Slot μ))} {v w : Held μ} :
      v ∈ items → Part v w → Part (.gathered items slots) w

/-- A value that is a gathered list. -/
def IsGathered (v : Held μ) : Prop := ∃ items slots, v = .gathered items slots

theorem not_isGathered_ofValue (v : Value μ) : ¬(ofValue v).IsGathered := by
  rintro ⟨items, slots, h⟩
  cases v <;> cases h

/-- What is within a JSON value is one. -/
theorem exists_of_part_ofValue {v : Value μ} {u : Held μ} (h : (ofValue v).Part u) :
    ∃ w, u = ofValue w := by
  induction v using Value.ind with
  | null | bool | int | double | string =>
    cases h
    exact ⟨_, rfl⟩
  | array m items ih =>
    rw [ofValue_array] at h
    cases h with
    | here => exact ⟨.array m items, (ofValue_array m items).symm⟩
    | item hv h =>
      obtain ⟨w, hw, rfl⟩ := List.mem_map.1 hv
      exact ih w hw h
  | object m ms ih =>
    rw [ofValue_object] at h
    cases h with
    | here => exact ⟨.object m ms, (ofValue_object m ms).symm⟩
    | member hv h =>
      obtain ⟨p, hp, e⟩ := List.mem_map.1 hv
      obtain ⟨rfl, rfl⟩ := Prod.mk.inj e
      exact ih p hp h

variable {root : Value μ} {k : Nat}

/-- What is within a hit is a JSON value or what was gathered, found in the same document. -/
theorem exists_of_part_held {h : Hit μ (Value μ)} {u : Held μ} (hf : h.Found root k)
    (hs : h.Solid) (hu : h.held.Part u) : (∃ w, u = ofValue w) ∨
      ∃ gs, u = (Hit.gathered gs).held ∧ (Hit.gathered gs).Found root k ∧
        (Hit.gathered gs).Solid := by
  induction h using Hit.ind with
  | member m name v => exact .inl (exists_of_part_ofValue hu)
  | gathered hs' ih =>
    rw [Hit.held_gathered] at hu
    cases hu with
    | here => exact .inr ⟨hs', (Hit.held_gathered hs').symm, hf, hs⟩
    | gathered hv hu =>
      obtain ⟨g, hg, rfl⟩ := List.mem_map.1 hv
      exact ih g hg (hf.of_gathered g hg) (hs.of_gathered g hg) hu

theorem exists_of_part_place {p : Place μ (Value μ)} {u : Held μ} (hf : p.Found root k)
    (hs : p.Solid) (hu : p.held.Part u) : (∃ w, u = ofValue w) ∨
      ∃ gs, u = (Hit.gathered gs).held ∧ (Hit.gathered gs).Found root k ∧
        (Hit.gathered gs).Solid := by
  cases p with
  | value v => exact .inl (exists_of_part_ofValue hu)
  | hits hs' => exact exists_of_part_held (.gathered hf) hs hu

/-! ### Faithful lists -/

/-- What holds of a gathered list of items with slots beside them, gathered in `root`.  It is
not empty, and each item has one slot.  An item has no slot exactly if it is itself gathered;
the slot of any other is a member of an object in `root`, and the item is the value of it.  The
list was gathered with a field from the elements of a list, and an item is gathered exactly if
the element that it was found in is a list too. -/
structure Faithful (root : Value μ) (items : List (Held μ))
    (slots : List (Option (Slot μ))) : Prop where
  ne_nil : items ≠ []
  length_eq : slots.length = items.length
  inner : ∀ (i : Nat) (item : Held μ), items[i]? = some item →
    (slots[i]? = some none ↔ item.IsGathered)
  member : ∀ (i : Nat) (item : Held μ) (s : Slot μ), items[i]? = some item →
    slots[i]? = some (some s) → ∃ k m members name v, s = ⟨m, .field name⟩ ∧
      root.Contains k (.object m members) ∧ members.lookup name = some v ∧ item = ofValue v
  built : ∃ (l : Held μ) (es : List (Held μ)) (name : String), l.elements? = some es ∧
    l.field name = some (.gathered items slots) ∧
    ∀ (i : Nat) (item : Held μ), items[i]? = some item →
      ∃ e ∈ es, e.field name = some item ∧ (item.IsGathered ↔ e.elements?.isSome)

theorem isGathered_held_iff {h : Hit μ (Value μ)} :
    h.held.IsGathered ↔ h.source = none := by
  cases h with
  | member m name v => exact iff_of_false (not_isGathered_ofValue v) nofun
  | gathered hs => exact iff_of_true ⟨_, _, Hit.held_gathered hs⟩ rfl

/-- A value in which a field is found has a slot for it unless it is a list. -/
theorem slot?_eq_none_iff {e w : Held μ} {name : String} (h : e.field name = some w) :
    e.slot? name = none ↔ e.elements?.isSome := by
  cases e with
  | object m ms => exact iff_of_false nofun nofun
  | array m items | gathered items slots => exact iff_of_true rfl rfl
  | _ => cases h

theorem faithful_gathered {hs : List (Hit μ (Value μ))} (hf : (Hit.gathered hs).Found root k)
    (hsolid : (Hit.gathered hs).Solid) : Faithful root (hs.map Hit.held) (hs.map Hit.source) := by
  have hinner : ∀ (i : Nat) (item : Held μ), (hs.map Hit.held)[i]? = some item →
      ((hs.map Hit.source)[i]? = some none ↔ item.IsGathered) := by
    intro i item hi
    rw [List.getElem?_map, Option.map_eq_some_iff] at hi
    obtain ⟨h, hi, rfl⟩ := hi
    rw [List.getElem?_map, hi, isGathered_held_iff]
    exact Option.some_inj
  constructor
  case ne_nil =>
    cases hsolid with
    | gathered hne _ _ _ => exact fun h => hne (List.map_eq_nil_iff.1 h)
  case length_eq => rw [List.length_map, List.length_map]
  case inner => exact hinner
  case member =>
    intro i item s hi hslot
    rw [List.getElem?_map, Option.map_eq_some_iff] at hi
    obtain ⟨h, hi, rfl⟩ := hi
    rw [List.getElem?_map, hi] at hslot
    have hfound := hf.of_gathered h (List.mem_of_getElem? hi)
    cases h with
    | member m name v =>
      obtain ⟨j, ms, -, hc, hl⟩ := hfound.of_member
      exact ⟨j, m, ms, name, v, (Option.some.inj (Option.some.inj hslot)).symm, hc, hl, rfl⟩
    | gathered gs => cases hslot
  case built =>
    cases hsolid with
    | @gathered _ l es name hne _ hl hfield =>
      rw [Hit.held_gathered] at hfield
      refine ⟨l, es, name, hl, hfield, ?_⟩
      intro i item hi
      obtain ⟨e, he, hitem, hslot⟩ := exists_element hl hfield hi
      refine ⟨e, he, hitem, ?_⟩
      -- both kinds are read off the slot: that of the item from the slot beside it, and
      -- that of the element from the slot it was given
      rw [← hinner i item hi, hslot, Option.some_inj]
      exact slot?_eq_none_iff hitem

/-! ### Plain values -/

mutual

/-- A value with arrays in the place of gathered lists, wherever they are; they have the mark
`fresh`. -/
def toValue (fresh : μ) : Held μ → Value μ
  | .null => .null
  | .bool b => .bool b
  | .int n => .int n
  | .double x => .double x
  | .string s => .string s
  | .array m items => .array m (toItems fresh items)
  | .object m members => .object m (toMembers fresh members)
  | .gathered items _ => .array fresh (toItems fresh items)

/-- The items of a list with arrays in the place of gathered lists. -/
def toItems (fresh : μ) : List (Held μ) → List (Value μ)
  | [] => []
  | v :: vs => v.toValue fresh :: toItems fresh vs

/-- The members of an object with arrays in the place of gathered lists. -/
def toMembers (fresh : μ) : List (String × Held μ) → List (String × Value μ)
  | [] => []
  | (k, v) :: ms => (k, v.toValue fresh) :: toMembers fresh ms

end

theorem toItems_eq_map (fresh : μ) (l : List (Held μ)) :
    toItems fresh l = l.map (toValue fresh) := by
  induction l with
  | nil => rfl
  | cons v vs ih => exact congrArg (v.toValue fresh :: ·) ih

theorem toMembers_eq_map (fresh : μ) (l : List (String × Held μ)) :
    toMembers fresh l = l.map fun p => (p.1, p.2.toValue fresh) := by
  induction l with
  | nil => rfl
  | cons p ms ih => exact congrArg ((p.1, p.2.toValue fresh) :: ·) ih

theorem plainAll_eq_map (fresh : μ) (l : List (Held μ)) :
    plainAll fresh l = l.map (plain fresh) := by
  induction l with
  | nil => rfl
  | cons v vs ih => exact congrArg (v.plain fresh :: ·) ih

theorem toValue_ofValue (fresh : μ) (v : Value μ) : (ofValue v).toValue fresh = v := by
  induction v using Value.ind with
  | null | bool | int | double | string => rfl
  | array m items ih =>
    rw [ofValue_array, toValue, toItems_eq_map, List.map_map]
    exact congrArg (Value.array m) ((List.map_congr_left ih).trans (List.map_id' items))
  | object m ms ih =>
    have hms : ∀ p ∈ ms, (p.1, (ofValue p.2).toValue fresh) = p :=
      fun p hp => congrArg (Prod.mk p.1) (ih p hp)
    rw [ofValue_object, toValue, toMembers_eq_map, List.map_map]
    exact congrArg (Value.object m) ((List.map_congr_left hms).trans (List.map_id' ms))

theorem plain_ofValue (fresh : μ) (v : Value μ) : (ofValue v).plain fresh = ofValue v := by
  cases v <;> rfl

/-- The plain value of a hit is a JSON value, and the hit but for the lists. -/
theorem plain_held (fresh : μ) (h : Hit μ (Value μ)) :
    h.held.plain fresh = ofValue (h.held.toValue fresh) := by
  induction h using Hit.ind with
  | member m name v =>
    show (ofValue v).plain fresh = ofValue ((ofValue v).toValue fresh)
    rw [plain_ofValue, toValue_ofValue]
  | gathered hs ih =>
    rw [Hit.held_gathered, plain, plainAll_eq_map, toValue, toItems_eq_map, ofValue_array,
      List.map_map, List.map_map, List.map_map]
    exact congrArg (array fresh) (List.map_congr_left ih)

theorem plain_place (fresh : μ) (p : Place μ (Value μ)) :
    p.held.plain fresh = ofValue (p.held.toValue fresh) := by
  cases p with
  | value v =>
    show (ofValue v).plain fresh = ofValue ((ofValue v).toValue fresh)
    rw [plain_ofValue, toValue_ofValue]
  | hits hs => exact plain_held fresh (.gathered hs)

theorem erase_held (fresh : μ) (h : Hit μ (Value μ)) :
    (h.held.toValue fresh).erase = h.plain := by
  induction h using Hit.ind with
  | member m name v => exact congrArg Value.erase (toValue_ofValue fresh v)
  | gathered hs ih =>
    rw [Hit.held_gathered, toValue, toItems_eq_map, Value.erase_array, Hit.plain_gathered,
      List.map_map, List.map_map]
    exact congrArg (Value.array ()) (List.map_congr_left ih)

/-- What stands at a place is the plain value of it. -/
theorem erase_plain_place (fresh : μ) (p : Place μ (Value μ)) :
    ((p.held.plain fresh).toValue fresh).erase = p.plain := by
  rw [plain_place, toValue_ofValue]
  cases p with
  | value v => exact congrArg Value.erase (toValue_ofValue fresh v)
  | hits hs => exact erase_held fresh (.gathered hs)

/-! ### The main result -/

/-- **Gathered lists are what they are taken for.**  The walk with items and slots side by side
leads where the walk of the program leads; the plain value there is what the program reads, and
the slots that a last index addresses are the same.  Every gathered list in what the walk leads
to, at any depth, is faithful; no gathered list is within a value of the document; and in the
plain value there is none at all, and all else is as it was. -/
theorem gathered_faithful (root : Value μ) (steps : List Step) :
    ((ofValue root).walk 0 steps = (root.reach steps).map Place.held ∧
      (∀ fresh, root.query steps =
        ((ofValue root).walk 0 steps).map fun v => ((v.plain fresh).toValue fresh).erase) ∧
      ∀ (p : Place μ (Value μ)) i, p.held.indexSlots i = p.indexSlots i) ∧
    ∀ v, (ofValue root).walk 0 steps = .ok v →
      (∀ items slots, v.Part (.gathered items slots) → Faithful root items slots) ∧
      (∀ w u, v.Part w → ¬w.IsGathered → w.Part u → ¬u.IsGathered) ∧
      ∀ fresh, (∀ u, (v.plain fresh).Part u → ¬u.IsGathered) ∧
        (v.plain fresh).toValue fresh = v.toValue fresh := by
  have hwalk : (ofValue root).walk 0 steps = (root.reach steps).map Place.held :=
    Place.walk_held (.value root) 0 steps
  refine ⟨⟨hwalk, ?_, fun p i => Place.indexSlots_held i p⟩, ?_⟩
  · intro fresh
    rw [hwalk, Value.query]
    cases root.reach steps with
    | error o => rfl
    | ok p => exact congrArg Except.ok (erase_plain_place fresh p).symm
  intro v hv
  rw [hwalk] at hv
  obtain ⟨p, hp, rfl⟩ := Except.map_eq_ok.1 hv
  have hfound := Value.found_of_reach hp
  have hsolid : p.Solid := Place.Solid.walk (p := .value root) trivial hp
  refine ⟨?_, ?_, ?_⟩
  · -- a gathered list is no value of the document, so it is one of hits
    intro items slots hpart
    rcases exists_of_part_place hfound hsolid hpart with ⟨w, hw⟩ | ⟨hs, hhs, hf, hs'⟩
    · exact absurd ⟨items, slots, hw.symm⟩ (not_isGathered_ofValue w)
    · rw [Hit.held_gathered] at hhs
      obtain ⟨rfl, rfl⟩ := Held.gathered.inj hhs
      exact faithful_gathered hf hs'
  · -- what is not gathered is a value of the document, and so is all within it
    intro w u hw hne hu
    rcases exists_of_part_place hfound hsolid hw with ⟨x, rfl⟩ | ⟨hs, rfl, -, -⟩
    · obtain ⟨y, rfl⟩ := exists_of_part_ofValue hu
      exact not_isGathered_ofValue y
    · exact absurd ⟨_, _, Hit.held_gathered hs⟩ hne
  · intro fresh
    rw [plain_place]
    constructor
    · intro u hu
      obtain ⟨y, rfl⟩ := exists_of_part_ofValue hu
      exact not_isGathered_ofValue y
    · exact toValue_ofValue fresh _

/-- An array of an array and an object, where a field gathers a list of a list and a number. -/
def mixed : Value Nat :=
  .array 0 [.array 1 [.object 2 [("a", .object 3 [("b", .int 1)])]], .object 4 [("a", .int 2)],
    .null]

theorem gathered_faithful_mixed :
    (ofValue mixed).walk 0 [.field "a"] =
      .ok (.gathered [.gathered [.object 3 [("b", .int 1)]] [some ⟨2, .field "a"⟩], .int 2]
        [none, some ⟨4, .field "a"⟩]) ∧
    Faithful mixed [.gathered [.object 3 [("b", .int 1)]] [some ⟨2, .field "a"⟩], .int 2]
      [none, some ⟨4, .field "a"⟩] ∧
    Faithful mixed [.object 3 [("b", .int 1)]] [some ⟨2, .field "a"⟩] ∧
    ¬(int 1 : Held Nat).IsGathered := by
  have hwalk : (ofValue mixed).walk 0 [.field "a"] =
      .ok (.gathered [.gathered [.object 3 [("b", .int 1)]] [some ⟨2, .field "a"⟩], .int 2]
        [none, some ⟨4, .field "a"⟩]) := rfl
  obtain ⟨hfaithful, hwithin, -⟩ := (gathered_faithful mixed [.field "a"]).2 _ hwalk
  refine ⟨hwalk, hfaithful _ _ (.here _), ?_, ?_⟩
  · exact hfaithful _ _ (.gathered List.mem_cons_self (.here _))
  · have hobject : ¬(object 3 [("b", int 1)] : Held Nat).IsGathered := nofun
    refine hwithin _ _ (.gathered List.mem_cons_self ?_) hobject ?_
    · exact .gathered List.mem_cons_self (.here _)
    · exact .member List.mem_cons_self (.here _)

end Held

end JsonPaths
