/-
JsonPaths/Proofs/Path/Overwrite.lean

Writing twice at a path, and writing back what it reads.

A write never changes which slots its own path addresses (`target_write`): the steps
before the last one lead where they led, an object in which a field is looked for keeps
the member that it has, and none gets it that lacked it.  So a second write goes to the
slots of the first and covers it (`write_write`).  A path that reads a stored value
addresses the one slot that holds it (`target_of_reach_value`), and a write of what the
slots hold changes nothing (`erase_write_of_holds`).
-/
import JsonPaths.Proofs.Path.ReadBack
import JsonPaths.Proofs.Path.Update

namespace JsonPaths

variable {μ : Type}

/-! ### Slots after a write -/

section Slots

variable [DecidableEq μ] {slots : List (Slot μ)} {new : Value μ}

/-- The slots of a field in a value that is quiet for it. -/
theorem Value.slots_write {name : String} {v : Value μ} (hq : v.Quiet slots name) :
    (write slots new v).slots name = v.slots name := by
  induction v using Value.ind with
  | null | bool | int | double | string => rfl
  | array m items ih =>
    obtain ⟨harr, hobj⟩ := hq
    rw [write_array, storeItems_of_quiet fun i => harr m items i (.here _), slots_array,
      slots_array, List.flatMap_map]
    refine List.flatMap_congr fun w hw => ih w hw ⟨?_, ?_⟩
    · intro m' is i hc
      exact harr m' is i (.item hw hc)
    · intro m' ms hc
      exact hobj m' ms (.item hw hc)
  | object m ms _ =>
    have hsome : ((storeMembers slots new m (ms.map fun p => (p.1, write slots new p.2))).lookup
        name).isSome = (ms.lookup name).isSome := by
      rw [lookup_storeMembers, Assoc.lookup_map]
      by_cases hs : ⟨m, .field name⟩ ∈ slots
      · rw [if_pos hs, hq.2 m ms (.here _) hs]
        rfl
      · rw [if_neg hs, Option.isSome_map]
    rw [write_object, slots_object, slots_object, hsome]

theorem Hit.slots_refresh {name : String} {h : Hit μ (Value μ)}
    (hq : ∀ m n v, h.Holds m n v → ⟨m, .field n⟩ ∉ slots ∧ v.Quiet slots name) :
    (h.refresh slots new).slots name = h.slots name := by
  induction h using Hit.ind with
  | member m n v =>
    obtain ⟨hs, hv⟩ := hq m n v (.member m n v)
    rw [refresh_member, if_neg hs]
    exact Value.slots_write hv
  | gathered hs ih =>
    rw [refresh_gathered, slots_gathered, slots_gathered, List.flatMap_map]
    refine List.flatMap_congr fun h hh => ih h hh fun m n v hv => ?_
    exact hq m n v (.gathered hh hv)

/-- An index addresses the same slot before and after a write, wherever it is to. -/
theorem Place.slots_index_refresh (i : Nat) (p : Place μ (Value μ)) :
    (p.refresh slots new).slots (.index i) = p.slots (.index i) := by
  cases p with
  | value v =>
    cases v with
    | array m items =>
      show (value (Value.write slots new (.array m items))).slots (.index i)
        = if i < items.length then [(⟨m, .index i⟩ : Slot μ)] else []
      rw [Value.write_array]
      show (if i < (storeItems slots new m _).length then _ else _) = _
      rw [length_storeItems, List.length_map]
    | object m ms => rfl
    | _ => rfl
  | hits hs =>
    show (((hs.map (Hit.refresh slots new))[i]?).bind Hit.source).toList
      = (hs[i]?.bind Hit.source).toList
    rw [List.getElem?_map]
    cases hs[i]? with
    | none => rfl
    | some h =>
      cases h with
      | member m n v => rfl
      | gathered hs => rw [Option.map_some, Hit.refresh_gathered]; rfl

/-- A last step addresses the same slots before and after a write to them. -/
theorem Place.slots_refresh {root : Value μ} (hc : root.Consistent) {k : Nat} {last : Step}
    {p : Place μ (Value μ)} (hf : p.Found root k)
    (hat : root.SlotsAt (p.slots last) (k + last.depth)) :
    (p.refresh (p.slots last) new).slots last = p.slots last := by
  cases last with
  | index i => exact slots_index_refresh i p
  | field name =>
    cases p with
    | value v =>
      cases v with
      | object m ms => rfl
      | array m items =>
        exact Value.slots_write (quiet_of_slots_field hc hf nofun hf)
      | _ => rfl
    | hits hs =>
      have h : (Hit.refresh (Hit.slotsOfAll name hs) new (.gathered hs)).slots name
          = (Hit.gathered hs).slots name :=
        Hit.slots_refresh fun m n v hh => quiet_of_holds_field hc hf hat hh
      rwa [Hit.refresh_gathered] at h

namespace Value

/-- **A write does not change what its path addresses.** -/
theorem target_write {root : Value μ} (hc : root.Consistent) {steps : List Step}
    (ht : root.target steps = .ok slots) : (write slots new root).target steps = .ok slots := by
  obtain ⟨init, last, p, rfl, hp, rfl, hne⟩ := target_eq_ok ht
  have hat := hc.slotsAt_concat ht
  refine target_concat_eq_ok.2 ⟨_, reach_init_write new hc hp hat, ?_, hne⟩
  exact Place.slots_refresh hc (found_of_reach hp) hat

/-! ### The second write -/

/-- **Of two writes to the same slots the second stays.** -/
theorem write_write {last : Step} (hstep : ∀ s ∈ slots, s.step = last) (new' v : Value μ) :
    write slots new' (write slots new v) = write slots new' v := by
  induction v using Value.ind with
  | null | bool | int | double | string => rfl
  | array m items ih =>
    rw [write_array, write_array, write_array]
    refine congrArg _ (List.ext_getElem? fun i => ?_)
    simp only [getElem?_storeItems, List.length_map, length_storeItems, List.getElem?_map]
    by_cases hs : ⟨m, .index i⟩ ∈ slots ∧ i < items.length
    · rw [if_pos hs, if_pos hs]
    · rw [if_neg hs, if_neg hs, if_neg hs, Option.map_map]
      cases hx : items[i]? with
      | none => rfl
      | some x => exact congrArg some (ih x (List.mem_of_getElem? hx))
  | object m ms ih =>
    have hmembers : (ms.map fun p => (p.1, write slots new p.2)).map
          (fun p => (p.1, write slots new' p.2))
        = ms.map fun p => (p.1, write slots new' p.2) := by
      rw [List.map_map]
      exact List.map_congr_left fun p hp => congrArg (Prod.mk p.1) (ih p hp)
    rw [write_object, write_object, write_object]
    refine congrArg _ ?_
    by_cases hname : ∃ name, ⟨m, .field name⟩ ∈ slots
    · obtain ⟨name, hs⟩ := hname
      have hone : ∀ s ∈ slots, s.step = .field name := by
        intro s hs'
        rw [hstep s hs', ← hstep _ hs]
      rw [storeMembers_of_mem hs hone, storeMembers_of_mem hs hone, storeMembers_of_mem hs hone,
        Assoc.map_put, hmembers, Assoc.put_put]
    · simp only [not_exists] at hname
      rw [storeMembers_of_notMem hname, storeMembers_of_notMem hname,
        storeMembers_of_notMem hname, hmembers]

/-- The value after a write depends on the value that is written, and not on its marks. -/
theorem erase_write_congr {a b : Value μ} (h : a.erase = b.erase) (v : Value μ) :
    (write slots a v).erase = (write slots b v).erase := by
  induction v using Value.ind with
  | null | bool | int | double | string => rfl
  | array m items ih =>
    rw [write_array, write_array, erase_array, erase_array]
    refine congrArg _ (List.ext_getElem? fun i => ?_)
    simp only [List.getElem?_map, getElem?_storeItems, List.length_map]
    by_cases hs : ⟨m, .index i⟩ ∈ slots ∧ i < items.length
    · rw [if_pos hs, if_pos hs, Option.map_some, Option.map_some, h]
    · rw [if_neg hs, if_neg hs, Option.map_map, Option.map_map]
      cases hx : items[i]? with
      | none => rfl
      | some x => exact congrArg some (ih x (List.mem_of_getElem? hx))
  | object m ms ih =>
    rw [write_object, write_object, erase_object, erase_object, storeMembers_eq_putEach,
      storeMembers_eq_putEach, Assoc.map_putEach, Assoc.map_putEach, h, List.map_map,
      List.map_map]
    refine congrArg (fun l => object () (Assoc.putEach _ _ l)) ?_
    exact List.map_congr_left fun p hp => congrArg (Prod.mk p.1) (ih p hp)

end Value

end Slots

/-! ### Writing back -/

/-- A step that leads to a stored value takes it from an object, an array or a hit. -/
theorem Place.source_of_step_value {p : Place μ (Value μ)} {s : Step} {x : Value μ}
    (h : p.step s = some (.value x)) :
    (∃ m ms name, p = .value (.object m ms) ∧ s = .field name ∧ ms.lookup name = some x) ∨
      (∃ m items i, p = .value (.array m items) ∧ s = .index i ∧ items[i]? = some x) ∨
      ∃ hs m name i, p = .hits hs ∧ s = .index i ∧ hs[i]? = some (.member m name x) := by
  cases s with
  | field name =>
    -- a field that is taken in a list gathers what it finds
    have hgathered : ∀ hs : List (Hit μ (Value μ)),
        (Hit.gather hs).map Hit.place ≠ some (.value x) := by
      intro hs
      cases hs <;> exact nofun
    cases p with
    | value v =>
      cases v with
      | object m ms =>
        rw [step_value_field, Value.pick_object, Option.map_map] at h
        obtain ⟨w, hw, e⟩ := Option.map_eq_some_iff.1 h
        obtain rfl := Place.value.inj e
        exact .inl ⟨m, ms, name, rfl, rfl, hw⟩
      | array m items => exact absurd h (hgathered _)
      | _ => cases h
    | hits hs => exact absurd h (hgathered _)
  | index i =>
    cases p with
    | value v =>
      cases v with
      | array m items =>
        obtain ⟨w, hw, e⟩ := Option.map_eq_some_iff.1 h
        obtain rfl := Place.value.inj e
        exact .inr (.inl ⟨m, items, i, rfl, rfl, hw⟩)
      | _ => cases h
    | hits hs =>
      obtain ⟨g, hg, e⟩ := Option.map_eq_some_iff.1 h
      cases g with
      | member m name w =>
        obtain rfl := Place.value.inj e
        exact .inr (.inr ⟨hs, m, name, i, rfl, rfl, hg⟩)
      | gathered hs' => cases e

namespace Value

/-- **A path that reads a stored value addresses the one slot that holds it.** -/
theorem target_of_reach_value {root : Value μ} {init : List Step} {last : Step} {x : Value μ}
    (h : root.reach (init ++ [last]) = .ok (.value x)) :
    ∃ s k c, root.target (init ++ [last]) = .ok [s] ∧ root.Contains k c ∧
      c.mark? = some s.owner ∧ c.child? s.step = some x := by
  obtain ⟨p, hp, hs⟩ := Place.walk_concat_eq_ok.1 h
  have hf := found_of_reach hp
  have htarget : ∀ s, p.slots last = [s] → root.target (init ++ [last]) = .ok [s] :=
    fun s hs => target_concat_eq_ok.2 ⟨p, hp, hs, List.cons_ne_nil s []⟩
  rcases Place.source_of_step_value hs with
    ⟨m, ms, name, rfl, rfl, hx⟩ | ⟨m, items, i, rfl, rfl, hx⟩ | ⟨hs', m, name, i, rfl, rfl, hx⟩
  · exact ⟨⟨m, .field name⟩, _, _, htarget _ rfl, hf, rfl, hx⟩
  · have hi := (List.getElem?_eq_some_iff.1 hx).1
    exact ⟨⟨m, .index i⟩, _, _, htarget _ (if_pos hi), hf, rfl, hx⟩
  · obtain ⟨j, ms, -, hc, hl⟩ := (hf _ (List.mem_of_getElem? hx)).of_member
    refine ⟨⟨m, .field name⟩, _, _, htarget _ ?_, hc, rfl, hl⟩
    show (hs'[i]?.bind Hit.source).toList = _
    rw [hx]
    rfl

/-- A write of what the slots hold anyway changes nothing. -/
theorem erase_write_of_holds [DecidableEq μ] {slots : List (Slot μ)} {new v : Value μ}
    (h : ∀ s ∈ slots, ∀ k c, v.Contains k c → c.mark? = some s.owner →
      ∃ y, c.child? s.step = some y ∧ y.erase = new.erase) :
    (write slots new v).erase = v.erase := by
  induction v using Value.ind with
  | null | bool | int | double | string => rfl
  | array m items ih =>
    have hitems : ∀ w ∈ items, (write slots new w).erase = w.erase := fun w hw =>
      ih w hw fun s hs k c hc => h s hs k c (.item hw hc)
    rw [write_array, erase_array, erase_array]
    refine congrArg _ (List.ext_getElem? fun i => ?_)
    simp only [List.getElem?_map, getElem?_storeItems, List.length_map]
    by_cases hs : ⟨m, .index i⟩ ∈ slots ∧ i < items.length
    · obtain ⟨y, hy, he⟩ := h _ hs.1 0 _ (.here _) rfl
      rw [if_pos hs, show items[i]? = some y from hy, Option.map_some, Option.map_some, he]
    · rw [if_neg hs, Option.map_map]
      cases hx : items[i]? with
      | none => rfl
      | some x => exact congrArg some (hitems x (List.mem_of_getElem? hx))
  | object m ms ih =>
    have hmembers : ms.map (fun p => (p.1, (write slots new p.2).erase))
        = ms.map fun p => (p.1, p.2.erase) := by
      refine List.map_congr_left fun p hp => congrArg (Prod.mk p.1) (ih p hp ?_)
      intro s hs k c hc
      exact h s hs (k + 1) c (.member (show (p.1, p.2) ∈ ms from hp) hc)
    rw [write_object, erase_object, erase_object, storeMembers_eq_putEach, Assoc.map_putEach,
      List.map_map]
    refine congrArg _ ((congrArg _ hmembers).trans (Assoc.putEach_eq_self fun name hn => ?_))
    obtain ⟨y, hy, he⟩ := h _ (Slot.mem_names.1 hn) 0 _ (.here _) rfl
    rw [Assoc.lookup_map, show ms.lookup name = some y from hy, Option.map_some, he]

end Value

end JsonPaths
