/-
JsonPaths/Proofs/Path/ReadBack.lean

Reading a path after a write at it.

A step is `Quiet` for a set of slots if it does not read any of them, nor sees a
member appear.  A walk of quiet steps leads to the same place before and after a
write, with what stands in the place written to (`walk_refresh`).

The steps before the last one of an assigned path are quiet.  Depth tells most
of it: the path has passed fewer members when it reads a container than lie
above the slots.  What depth leaves open are the index steps after the last
field: they go strictly downwards, so a consistent tree does not lead them back
to the array that is written to.  The last step then meets the slots themselves
(`reach_write`).
-/
import JsonPaths.Proofs.Path.Relabel
import JsonPaths.Proofs.Path.Written

namespace JsonPaths

variable {μ : Type} [DecidableEq μ]

/-! ### Places after a write -/

/-- A hit after a write: a hit in a slot has the new value, any other value is
written to. -/
def Hit.refresh (slots : List (Slot μ)) (new : Value μ) :
    Hit μ (Value μ) → Hit μ (Value μ) :=
  Hit.map id fun m name v =>
    if ⟨m, .field name⟩ ∈ slots then new else Value.write slots new v

/-- A place after a write. -/
def Place.refresh (slots : List (Slot μ)) (new : Value μ) :
    Place μ (Value μ) → Place μ (Value μ)
  | .value v => .value (Value.write slots new v)
  | .hits hs => .hits (hs.map (Hit.refresh slots new))

/-! ### Quiet steps -/

section Quiet

variable (slots : List (Slot μ))

/-- No array reached from `v` through arrays has a slot, and no object reached so
gets the member `name` from one. -/
def Value.Quiet (name : String) (v : Value μ) : Prop :=
  (∀ m items i, v.Contains 0 (.array m items) → ⟨m, .index i⟩ ∉ slots) ∧
    ∀ m ms, v.Contains 0 (.object m ms) → ⟨m, .field name⟩ ∈ slots → (ms.lookup name).isSome

/-- A step from a place that does not read a slot. -/
def Place.Quiet : Step → Place μ (Value μ) → Prop
  | .field name, .value v => v.Quiet slots name ∧
      ∀ m ms, v = .object m ms → ⟨m, .field name⟩ ∉ slots
  | .field name, .hits hs => ∀ h ∈ hs, ∀ m n v, h.Holds m n v →
      ⟨m, .field n⟩ ∉ slots ∧ v.Quiet slots name
  | .index i, .value v => ∀ m items, v = .array m items → ⟨m, .index i⟩ ∉ slots
  | .index i, .hits hs => ∀ m n v, hs[i]? = some (.member m n v) → ⟨m, .field n⟩ ∉ slots

end Quiet

variable {slots : List (Slot μ)} {new : Value μ}

theorem storeItems_of_quiet {m : μ} (h : ∀ i, ⟨m, .index i⟩ ∉ slots)
    (items : List (Value μ)) : storeItems slots new m items = items := by
  refine List.ext_getElem? fun i => ?_
  rw [getElem?_storeItems, if_neg fun hs => h i hs.1]

theorem Hit.refresh_member (m : μ) (name : String) (v : Value μ) :
    (member m name v).refresh slots new = .member m name
      (if ⟨m, .field name⟩ ∈ slots then new else Value.write slots new v) := rfl

theorem Hit.refresh_gathered (hs : List (Hit μ (Value μ))) :
    (Hit.gathered hs).refresh slots new = .gathered (hs.map (Hit.refresh slots new)) :=
  map_gathered ..

/-- A field is read after a write as before it, from values that are quiet. -/
theorem Value.pick_write {name : String} {v : Value μ} (hq : v.Quiet slots name) :
    (write slots new v).pick name = (v.pick name).map (Hit.refresh slots new) := by
  induction v using Value.ind with
  | null | bool | int | double | string => rfl
  | array m items ih =>
    obtain ⟨harr, hobj⟩ := hq
    have hitems : ∀ w ∈ items, (write slots new w).pick name
        = (w.pick name).map (Hit.refresh slots new) := fun w hw =>
      ih w hw ⟨fun m' is i hc => harr m' is i (.item hw hc),
        fun m' ms hc => hobj m' ms (.item hw hc)⟩
    rw [write_array, storeItems_of_quiet fun i => harr m items i (.here _)]
    rw [pick_array, pick_array, List.filterMap_map]
    refine .trans (congrArg Hit.gather ?_) (Hit.gather_map ..)
    rw [List.map_filterMap]
    exact List.filterMap_congr hitems
  | object m ms _ =>
    rw [write_object, pick_object, pick_object, lookup_storeMembers, Assoc.lookup_map,
      Option.map_map]
    by_cases hs : ⟨m, .field name⟩ ∈ slots
    · obtain ⟨w, hw⟩ := Option.isSome_iff_exists.1 (hq.2 m ms (.here _) hs)
      simp [hs, hw, Hit.refresh_member]
    · cases hw : ms.lookup name <;> simp [hs, Hit.refresh_member]

variable (new) in
theorem Hit.pick_refresh {name : String} {h : Hit μ (Value μ)}
    (hq : ∀ m n v, h.Holds m n v → ⟨m, .field n⟩ ∉ slots ∧ v.Quiet slots name) :
    (h.refresh slots new).pick name = (h.pick name).map (Hit.refresh slots new) := by
  induction h using Hit.ind with
  | member m n v =>
    obtain ⟨hs, hv⟩ := hq m n v (.member m n v)
    rw [refresh_member, if_neg hs]
    exact Value.pick_write hv
  | gathered hs ih =>
    have hall : ∀ h ∈ hs, (h.refresh slots new).pick name
        = (h.pick name).map (Hit.refresh slots new) := fun h hh =>
      ih h hh fun m n v hv => hq m n v (.gathered hh hv)
    rw [refresh_gathered, pick_gathered, pick_gathered, List.filterMap_map]
    refine .trans (congrArg gather ?_) (gather_map ..)
    rw [List.map_filterMap]
    exact List.filterMap_congr hall

theorem Hit.place_refresh {h : Hit μ (Value μ)}
    (hq : ∀ m n v, h = .member m n v → ⟨m, .field n⟩ ∉ slots) :
    (h.refresh slots new).place = h.place.refresh slots new := by
  cases h with
  | member m n v => rw [refresh_member, if_neg (hq m n v rfl)]; rfl
  | gathered hs => rw [refresh_gathered]; rfl

namespace Place

/-- A quiet step leads to the same place before and after a write. -/
theorem step_refresh {s : Step} {p : Place μ (Value μ)} (hq : p.Quiet slots s) :
    (p.refresh slots new).step s = (p.step s).map (refresh slots new) := by
  cases s with
  | field name =>
    cases p with
    | value v =>
      obtain ⟨hv, hobj⟩ := hq
      show (value (Value.write slots new v)).step (.field name) = _
      rw [step_value_field, step_value_field, Value.pick_write hv]
      cases hp : v.pick name with
      | none => rfl
      | some h =>
        -- a hit is a place of its own only if it is a member that is not written
        refine congrArg some (Hit.place_refresh fun m n w e => ?_)
        cases v with
        | object m' ms =>
          rw [Value.pick_object, Option.map_eq_some_iff] at hp
          obtain ⟨x, -, rfl⟩ := hp
          obtain ⟨rfl, rfl, -⟩ := Hit.member.inj e
          exact hobj m' ms rfl
        | array m' items =>
          obtain ⟨-, rfl⟩ := Hit.gather_eq_some.1 hp
          cases e
        | _ => cases hp
    | hits hs =>
      have h := Hit.pick_refresh new (h := .gathered hs) fun m n v hh => by
          cases hh with
          | gathered hm hh => exact hq _ hm m n v hh
      rw [Hit.refresh_gathered] at h
      show (hits _).step (.field name) = _
      rw [step_hits_field, step_hits_field, h]
      cases hp : (Hit.gathered hs).pick name with
      | none => rfl
      | some h =>
        obtain ⟨-, rfl⟩ := Hit.gather_eq_some.1 hp
        exact congrArg some (Hit.place_refresh fun m n w e => by cases e)
  | index i =>
    cases p with
    | value v =>
      cases v with
      | array m items =>
        show (value (Value.write slots new (.array m items))).step (.index i) = _
        rw [Value.write_array, step_array_index, step_array_index, getElem?_storeItems,
          if_neg fun hs => hq m items rfl hs.1, List.getElem?_map, Option.map_map,
          Option.map_map]
        rfl
      | object m ms => rfl
      | _ => rfl
    | hits hs =>
      show (hits (hs.map (Hit.refresh slots new))).step (.index i) = _
      rw [step_hits_index, step_hits_index, List.getElem?_map]
      cases hh : hs[i]? with
      | none => rfl
      | some h => exact congrArg some (Hit.place_refresh fun m n v e => hq m n v (e ▸ hh))

omit [DecidableEq μ] in
/-- Index steps lead from a value downwards through arrays. -/
theorem walk_value_of_depth_eq_zero {v : Value μ} {n : Nat} {ss : List Step}
    {q : Place μ (Value μ)} (hd : Path.depth ss = 0) (hw : (value v).walk n ss = .ok q) :
    ∃ w, q = .value w ∧ v.Contains 0 w := by
  induction ss generalizing v n with
  | nil => exact ⟨v, (Except.ok.inj hw).symm, .here v⟩
  | cons s ss ih =>
    cases s with
    | field name => simp at hd
    | index i =>
      cases v with
      | array m items =>
        rw [walk_cons, step_array_index] at hw
        cases hx : items[i]? with
        | none => simp [hx] at hw
        | some x =>
          rw [hx, Option.map_some] at hw
          obtain ⟨w, rfl, hc⟩ := ih (by simpa using hd) hw
          exact ⟨w, rfl, .item (List.mem_of_getElem? hx) hc⟩
      | _ => cases hw

omit [DecidableEq μ] in
/-- A slot that index steps lead to from a value belongs to an array in it. -/
theorem array_of_mem_slots {v : Value μ} {n i : Nat} {ss : List Step} {q : Place μ (Value μ)}
    {s : Slot μ} (hd : Path.depth ss = 0) (hw : (value v).walk n ss = .ok q)
    (hs : s ∈ q.slots (.index i)) :
    s.step = .index i ∧ ∃ items, v.Contains 0 (.array s.owner items) := by
  obtain ⟨w, rfl, hvw⟩ := walk_value_of_depth_eq_zero hd hw
  rcases mem_slots_index hs with ⟨m, items, e, -, rfl⟩ | ⟨_, _, _, _, e, -, -⟩
  · obtain rfl := Place.value.inj e
    exact ⟨rfl, items, hvw⟩
  · cases e

omit [DecidableEq μ] in
/-- Values that a path takes a field in are quiet for that field.  An array in them lies
less deep than the slots; an object does so too, unless the slot is a hit that is
indexed, and then the object has the member. -/
theorem quiet_of_slotsAt {root : Value μ} (hc : root.Consistent) {k d : Nat} {name : String}
    {last : Step} {q : Place μ (Value μ)} (hq : q.Found root (k + 1 + d))
    (hat : root.SlotsAt (q.slots last) (k + 1 + d + last.depth)) {v : Value μ}
    (hv : root.Contains k v) : v.Quiet (q.slots last) name := by
  constructor
  · intro m items i hi hm
    have hdepth := hat _ hm k _ (by simpa using hv.trans hi) rfl
    simp only [Step.depth_index] at hdepth
    omega
  · intro m ms ho hm
    have hdepth := hat _ hm k _ (by simpa using hv.trans ho) rfl
    simp only [Step.depth_field] at hdepth
    obtain ⟨i, rfl⟩ := Step.exists_index_of_depth (s := last) (by omega)
    rcases mem_slots_index hm with ⟨_, _, -, -, e⟩ | ⟨hs', m', n', w, rfl, hh, e⟩
    · cases e
    · simp only [Slot.mk.injEq, Step.field.injEq] at e
      obtain ⟨rfl, rfl⟩ := e
      -- the hit was read from an object of this mark, which has the member
      obtain ⟨j, ms', -, hc', hl⟩ := (hq _ (List.mem_of_getElem? hh)).of_member
      obtain ⟨e, -⟩ := hc (hv.trans ho) hc' rfl rfl
      obtain ⟨-, rfl⟩ := Value.object.inj e
      simp [hl]

omit [DecidableEq μ] in
/-- **The steps before the last one are quiet** for the slots that the path
addresses, in a consistent tree. -/
theorem quiet_of_walk {root : Value μ} (hc : root.Consistent) {k n : Nat} {s last : Step}
    {ss : List Step} {p r q : Place μ (Value μ)} (hf : p.Found root k)
    (hs : p.step s = some r) (hw : r.walk n ss = .ok q)
    (hat : root.SlotsAt (q.slots last) (k + s.depth + Path.depth ss + last.depth)) :
    p.Quiet (q.slots last) s := by
  have hq : q.Found root (k + s.depth + Path.depth ss) :=
    found_of_walk (found_of_step hf hs) hw
  -- A slot that is read lies as deep as the whole path leads, so that only index
  -- steps are left.
  cases s with
  | field name =>
    cases p with
    | value v =>
      refine ⟨quiet_of_slotsAt hc hq hat hf, ?_⟩
      rintro m ms rfl hm
      have hdepth := hat _ hm k _ hf rfl
      simp only [Step.depth_field] at hdepth
      obtain ⟨i, rfl⟩ := Step.exists_index_of_depth (s := last) (by omega)
      obtain ⟨h, hp, rfl⟩ := Option.map_eq_some_iff.1 hs
      rw [Value.pick_object, Option.map_eq_some_iff] at hp
      obtain ⟨x, -, rfl⟩ := hp
      obtain ⟨e, -⟩ := array_of_mem_slots (by omega) hw hm
      cases e
    | hits hs' =>
      intro h hh m n v hv
      have hfound := (hf h hh).of_holds hv
      refine ⟨fun hm => ?_, quiet_of_slotsAt hc hq hat hfound.contains⟩
      obtain ⟨j, ms, rfl, hc', -⟩ := hfound.of_member
      have hdepth := hat _ hm j _ hc' rfl
      simp only [Step.depth_field] at hdepth
      omega
  | index j =>
    cases p with
    | value v =>
      rintro m items rfl hm
      have hdepth := hat _ hm k _ hf rfl
      simp only [Step.depth_index] at hdepth
      obtain ⟨i, rfl⟩ := Step.exists_index_of_depth (s := last) (by omega)
      obtain ⟨x, hx, rfl⟩ := Option.map_eq_some_iff.1 hs
      -- the array would lie inside its own item
      obtain ⟨-, items', hxw⟩ := array_of_mem_slots (by omega) hw hm
      exact hc.notMem_items hf (List.mem_of_getElem? hx) hxw
    | hits hs' =>
      intro m n v hh hm
      obtain ⟨j', ms, rfl, hc', -⟩ := (hf _ (List.mem_of_getElem? hh)).of_member
      have hdepth := hat _ hm j' _ hc' rfl
      simp only [Step.depth_field, Step.depth_index] at hdepth
      obtain ⟨i, rfl⟩ := Step.exists_index_of_depth (s := last) (by omega)
      obtain ⟨h, hh', rfl⟩ := Option.map_eq_some_iff.1 hs
      obtain rfl := Option.some.inj (hh.symm.trans hh')
      obtain ⟨e, -⟩ := array_of_mem_slots (by omega) hw hm
      cases e

/-- The steps before the last one lead to the same place before and after a
write to what the path addresses. -/
theorem walk_refresh {root : Value μ} (hc : root.Consistent) {k n : Nat} {last : Step}
    {ss : List Step} {p q : Place μ (Value μ)} (hf : p.Found root k)
    (hw : p.walk n ss = .ok q)
    (hat : root.SlotsAt (q.slots last) (k + Path.depth ss + last.depth)) :
    (p.refresh (q.slots last) new).walk n ss = .ok (q.refresh (q.slots last) new) := by
  induction ss generalizing p k n with
  | nil =>
    obtain rfl : p = q := Except.ok.inj hw
    rfl
  | cons s ss ih =>
    rw [walk_cons] at hw ⊢
    cases hs : p.step s with
    | none => simp [hs] at hw
    | some r =>
      simp only [hs] at hw
      rw [Path.depth_cons, ← Nat.add_assoc] at hat
      rw [step_refresh (quiet_of_walk hc hf hs hw hat), hs]
      exact ih (found_of_step hf hs) hw hat

end Place

/-! ### The last step -/

omit [DecidableEq μ] in
theorem Hit.map_congr {ν α β : Type} {f : μ → ν} {g g' : μ → String → α → β} {h : Hit μ α}
    (he : ∀ m name v, h.Holds m name v → g m name v = g' m name v) :
    h.map f g = h.map f g' := by
  induction h using Hit.ind with
  | member m name v => exact congrArg (member (f m) name) (he m name v (.member m name v))
  | gathered hs ih =>
    rw [map_gathered, map_gathered]
    exact congrArg gathered (List.map_congr_left fun h hh =>
      ih h hh fun m name v hv => he m name v (.gathered hh hv))

namespace Place

/-- A place all of whose hits have been replaced by one value. -/
def overwrite (new : Value μ) (hs : List (Hit μ (Value μ))) : Place μ (Value μ) :=
  .hits (hs.map (Hit.map id fun _ _ _ => new))

/-- An index that is written to reads what was written. -/
theorem step_index_refresh {i : Nat} {p : Place μ (Value μ)} (hne : p.slots (.index i) ≠ []) :
    (p.refresh (p.slots (.index i)) new).step (.index i) = some (.value new) := by
  obtain ⟨s, hs⟩ := List.exists_mem_of_ne_nil _ hne
  rcases mem_slots_index hs with ⟨m, items, rfl, hi, rfl⟩ | ⟨hs', m, name, v, rfl, hh, rfl⟩
  · generalize (value (.array m items)).slots (.index i) = slots at hs
    show (value (Value.write slots new (.array m items))).step (.index i) = _
    rw [Value.write_array, step_array_index, getElem?_storeItems, List.length_map,
      if_pos ⟨hs, hi⟩]
    rfl
  · generalize (hits hs').slots (.index i) = slots at hs
    show (hits (hs'.map (Hit.refresh slots new))).step (.index i) = _
    rw [step_hits_index, List.getElem?_map, hh, Option.map_some, Hit.refresh_member, if_pos hs]
    rfl

/-- A member of an object that is written to reads what was written. -/
theorem step_field_refresh_object {name : String} {m : μ} {ms : List (String × Value μ)} :
    ((value (.object m ms)).refresh ((value (.object m ms)).slots (.field name)) new).step
      (.field name) = some (.value new) := by
  show (value (Value.write [⟨m, .field name⟩] new (.object m ms))).step (.field name) = _
  rw [Value.write_object, step_value_field, Value.pick_object, lookup_storeMembers,
    if_pos List.mem_cons_self]
  rfl

omit [DecidableEq μ] in
/-- Values that a last field is taken in are quiet for it: an object that gets the
member has it, as it is the object that was found to have it. -/
theorem quiet_of_slots_field {root : Value μ} (hc : root.Consistent) {k : Nat}
    {name : String} {p : Place μ (Value μ)} (hf : p.Found root k)
    (hobj : ∀ m ms, p ≠ .value (.object m ms)) {v : Value μ} (hv : root.Contains k v) :
    v.Quiet (p.slots (.field name)) name := by
  constructor
  · intro m items i hi hm
    obtain ⟨_, _, -, -, e⟩ := mem_slots_field hf hobj hm
    cases e
  · intro m ms ho hm
    obtain ⟨m', ms', hc', hl, e⟩ := mem_slots_field hf hobj hm
    simp only [Slot.mk.injEq, and_true] at e
    obtain ⟨e, -⟩ := hc (hv.trans ho) hc' rfl (e ▸ rfl)
    obtain ⟨-, rfl⟩ := Value.object.inj e
    exact hl

omit [DecidableEq μ] in
/-- The hits that a last field is taken in are no slots of it, since the objects that
they were read from lie less deep, and their values are quiet for it. -/
theorem quiet_of_holds_field {root : Value μ} (hc : root.Consistent) {k : Nat}
    {name : String} {hs : List (Hit μ (Value μ))} (hf : (hits hs).Found root k)
    (hat : root.SlotsAt ((hits hs).slots (.field name)) (k + 1)) {m : μ} {n : String}
    {v : Value μ} (hh : (Hit.gathered hs).Holds m n v) :
    ⟨m, .field n⟩ ∉ (hits hs).slots (.field name) ∧
      v.Quiet ((hits hs).slots (.field name)) name := by
  have hfound := (Hit.Found.gathered hf).of_holds hh
  refine ⟨fun hm => ?_, quiet_of_slots_field hc hf nofun hfound.contains⟩
  obtain ⟨j, ms, rfl, hc', -⟩ := hfound.of_member
  have hdepth := hat _ hm j _ hc' rfl
  simp only [Step.depth_field] at hdepth
  omega

variable (slots new) in
/-- Hits that are all in slots are all replaced. -/
theorem map_refresh_of_mem {hs : List (Hit μ (Value μ))}
    (h : ∀ m n w, (Hit.gathered hs).Holds m n w → ⟨m, .field n⟩ ∈ slots) :
    hs.map (Hit.refresh slots new) = hs.map (Hit.map id fun _ _ _ => new) := by
  refine List.map_congr_left fun g hg => Hit.map_congr fun m n w hw => ?_
  exact if_pos (h m n w (.gathered hg hw))

variable (new) in
/-- A field taken in an array or in gathered hits reads, after a write to what it
addresses, the hits it read before, each replaced by what was written. -/
theorem step_field_refresh {root : Value μ} (hc : root.Consistent) {k : Nat}
    {name : String} {p : Place μ (Value μ)} (hf : p.Found root k)
    (hat : root.SlotsAt (p.slots (.field name)) (k + 1))
    (hobj : ∀ m ms, p ≠ .value (.object m ms)) (hne : p.slots (.field name) ≠ []) :
    ∃ hs, p.step (.field name) = some (.hits hs) ∧
      (p.refresh (p.slots (.field name)) new).step (.field name) = some (overwrite new hs) := by
  cases p with
  | value v =>
    cases v with
    | object m ms => exact absurd rfl (hobj m ms)
    | array m items =>
      cases hp : (Value.array m items).pick name with
      | none => exact absurd (Value.pick_eq_none hp) hne
      | some h =>
        obtain ⟨-, rfl⟩ := Hit.gather_eq_some.1 hp
        have hquiet : (Value.array m items).Quiet _ name := quiet_of_slots_field hc hf hobj hf
        have hall := map_refresh_of_mem ((Value.array m items).slots name) new
          fun _ _ _ hw => Value.mem_slots_of_pick hp hw
        refine ⟨_, congrArg (Option.map Hit.place) hp, ?_⟩
        refine (congrArg (Option.map Hit.place) (Value.pick_write hquiet)).trans ?_
        rw [hp, Option.map_some, Hit.refresh_gathered]
        exact congrArg (fun l => some (hits l)) hall
    | _ => exact absurd rfl hne
  | hits hs =>
    cases hp : (Hit.gathered hs).pick name with
    | none => exact absurd (Hit.pick_eq_none hp) hne
    | some h =>
      obtain ⟨-, rfl⟩ := Hit.gather_eq_some.1 hp
      have hpick := Hit.pick_refresh new fun m n v hh => quiet_of_holds_field hc hf hat hh
      have hall := map_refresh_of_mem ((hits hs).slots (.field name)) new
        fun m n w hw => Hit.mem_slots_of_pick hp hw
      rw [Hit.refresh_gathered] at hpick
      refine ⟨_, congrArg (Option.map Hit.place) hp, ?_⟩
      refine (congrArg (Option.map Hit.place) hpick).trans ?_
      rw [hp, Option.map_some, Hit.refresh_gathered, hall]
      rfl

end Place

/-! ### Whole paths -/

omit [DecidableEq μ] in
theorem Value.Consistent.slotsAt_concat {root : Value μ} (hc : root.Consistent)
    {init : List Step} {last : Step} (ht : root.target (init ++ [last]) = .ok slots) :
    root.SlotsAt slots (Path.depth init + last.depth) := by
  have hat := hc.slotsAt ht
  rwa [Path.depth_append, Path.depth_cons, Path.depth_nil, Nat.add_zero] at hat

variable (new) in
/-- The steps before the last one lead where they led before the write. -/
theorem Value.reach_init_write {root : Value μ} (hc : root.Consistent) {init : List Step}
    {last : Step} {p : Place μ (Value μ)} (hp : root.reach init = .ok p)
    (hat : root.SlotsAt (p.slots last) (Path.depth init + last.depth)) :
    (write (p.slots last) new root).reach init = .ok (p.refresh (p.slots last) new) := by
  refine Place.walk_refresh (p := .value root) (k := 0) hc (Contains.here root) hp ?_
  rwa [Nat.zero_add]

variable (new) in
/-- **Reading a path right after a write to what it addresses.**  An index, and a
member of an object, read what was written; a field that is taken in an array or
in gathered hits reads the hits it read before, each replaced. -/
theorem Value.reach_write {root : Value μ} (hc : root.Consistent) {init : List Step}
    {last : Step} (ht : root.target (init ++ [last]) = .ok slots) :
    ∃ p, root.reach init = .ok p ∧
      (((∃ i, last = .index i) ∨ ∃ m ms, p = .value (.object m ms)) ∧
          (write slots new root).reach (init ++ [last]) = .ok (.value new) ∨
        (∃ name, last = .field name) ∧
          ((∃ m items, p = .value (.array m items)) ∨ ∃ hs, p = .hits hs) ∧
          ∃ hs, root.reach (init ++ [last]) = .ok (.hits hs) ∧
            (write slots new root).reach (init ++ [last]) = .ok (Place.overwrite new hs)) := by
  obtain ⟨p, hp, rfl, hne⟩ := target_concat_eq_ok.1 ht
  refine ⟨p, hp, ?_⟩
  have hf := found_of_reach hp
  have hat := hc.slotsAt_concat ht
  -- the steps before the last one lead where they led, so only the last one reads anew
  have hw := reach_init_write new hc hp hat
  cases last with
  | index i =>
    exact .inl ⟨.inl ⟨i, rfl⟩, Place.walk_concat_eq_ok.2 ⟨_, hw, Place.step_index_refresh hne⟩⟩
  | field name =>
    by_cases hobj : ∃ m ms, p = .value (.object m ms)
    · obtain ⟨m, ms, rfl⟩ := hobj
      refine .inl ⟨.inr ⟨m, ms, rfl⟩, Place.walk_concat_eq_ok.2 ⟨_, hw, ?_⟩⟩
      exact Place.step_field_refresh_object
    · simp only [not_exists] at hobj
      obtain ⟨hs, hr, hr'⟩ := Place.step_field_refresh new hc hf hat hobj hne
      refine .inr ⟨⟨name, rfl⟩, ?_, hs, Place.walk_concat_eq_ok.2 ⟨_, hp, hr⟩,
        Place.walk_concat_eq_ok.2 ⟨_, hw, hr'⟩⟩
      cases p with
      | hits hs => exact .inr ⟨hs, rfl⟩
      | value v =>
        cases v with
        | array m items => exact .inl ⟨m, items, rfl⟩
        | object m ms => exact absurd rfl (hobj m ms)
        | _ => exact absurd rfl hne

end JsonPaths
