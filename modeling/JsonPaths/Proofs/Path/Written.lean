/-
JsonPaths/Proofs/Path/Written.lean

Trees after a write.

A write puts `new` into given slots of a tree wherever their containers occur.
Every part of the tree afterwards is either a part of the tree before, written
to, or a part of `new` (`contains_write`).  So marks go on standing for one
container each, provided that all slots lie below the same number of members
(`Consistent.write`): this is why the depth of a part belongs to consistency.
-/
import JsonPaths.Proofs.Path.Found
import JsonPaths.Proofs.Value.Distinct

namespace JsonPaths

variable {μ : Type} [DecidableEq μ]

/-! ### Storing in one container -/

section Storing

variable {slots : List (Slot μ)} {new : Value μ} {m : μ}

theorem storeItems_cons (s : Slot μ) (items : List (Value μ)) :
    storeItems (s :: slots) new m items = storeItems slots new m
      (match s.step with
        | .index i => if s.owner = m then items.set i new else items
        | .field _ => items) := rfl

/-- The names of the slots that belong to the object with mark `m`. -/
def Slot.names (slots : List (Slot μ)) (m : μ) : List String :=
  slots.filterMap fun s =>
    match s.step with
    | .field name => if s.owner = m then some name else none
    | .index _ => none

theorem Slot.mem_names {name : String} : name ∈ Slot.names slots m ↔ ⟨m, .field name⟩ ∈ slots := by
  rw [Slot.names, List.mem_filterMap]
  constructor
  · rintro ⟨⟨o, t⟩, hs, h⟩
    cases t with
    | index i => cases h
    | field n =>
      dsimp only at h
      split at h
      · next e => exact e ▸ Option.some.inj h ▸ hs
      · cases h
  · exact fun h => ⟨_, h, if_pos rfl⟩

theorem storeMembers_eq_putEach (ms : List (String × Value μ)) :
    storeMembers slots new m ms = Assoc.putEach (Slot.names slots m) new ms := by
  induction slots generalizing ms with
  | nil => rfl
  | cons s ss ih =>
    obtain ⟨o, t⟩ := s
    refine (ih _).trans ?_
    cases t with
    | index i => rfl
    | field n => by_cases h : o = m <;> simp [Slot.names, h, Assoc.putEach_cons]

theorem length_storeItems (items : List (Value μ)) :
    (storeItems slots new m items).length = items.length := by
  induction slots generalizing items with
  | nil => rfl
  | cons s ss ih =>
    rw [storeItems_cons, ih]
    split
    · split <;> simp
    · rfl

/-- An item after a write: the new value if the slot is written to. -/
theorem getElem?_storeItems (items : List (Value μ)) (i : Nat) :
    (storeItems slots new m items)[i]? =
      if ⟨m, .index i⟩ ∈ slots ∧ i < items.length then some new else items[i]? := by
  induction slots generalizing items with
  | nil => exact (if_neg fun h => List.not_mem_nil h.1).symm
  | cons s ss ih =>
    obtain ⟨o, t⟩ := s
    rw [storeItems_cons, ih]
    cases t with
    | field n => simp
    | index j =>
      by_cases ho : o = m
      · subst ho
        by_cases hj : j = i
        · subst hj
          by_cases hl : j < items.length <;> simp [hl]
        · simp [List.getElem?_set_ne hj, Ne.symm hj]
      · simp [ho, Ne.symm ho]

/-- A member after a write: the new value if the slot is written to. -/
theorem lookup_storeMembers (ms : List (String × Value μ)) (name : String) :
    (storeMembers slots new m ms).lookup name =
      if ⟨m, .field name⟩ ∈ slots then some new else ms.lookup name := by
  rw [storeMembers_eq_putEach, Assoc.lookup_putEach]
  simp only [Slot.mem_names]

theorem mem_storeItems {items : List (Value μ)} {v : Value μ}
    (h : v ∈ storeItems slots new m items) :
    v ∈ items ∨ v = new ∧ ∃ i, ⟨m, .index i⟩ ∈ slots := by
  obtain ⟨i, hi⟩ := List.mem_iff_getElem?.1 h
  rw [getElem?_storeItems] at hi
  split at hi
  · next hs => exact .inr ⟨(Option.some.inj hi).symm, i, hs.1⟩
  · exact .inl (List.mem_of_getElem? hi)

theorem mem_storeMembers {ms : List (String × Value μ)} {p : String × Value μ}
    (h : p ∈ storeMembers slots new m ms) :
    p ∈ ms ∨ p.2 = new ∧ ∃ name, ⟨m, .field name⟩ ∈ slots := by
  rw [storeMembers_eq_putEach] at h
  rcases Assoc.mem_putEach h with hp | ⟨e, hne⟩
  · exact .inl hp
  · obtain ⟨name, hn⟩ := List.exists_mem_of_ne_nil _ hne
    exact .inr ⟨e, name, Slot.mem_names.1 hn⟩

end Storing

/-! ### Parts of a written tree -/

namespace Value

variable {slots : List (Slot μ)} {new : Value μ}

theorem writeItems_eq_map (l : List (Value μ)) :
    writeItems slots new l = l.map (write slots new) := by
  induction l with
  | nil => rfl
  | cons v vs ih => exact congrArg (write slots new v :: ·) ih

theorem writeMembers_eq_map (l : List (String × Value μ)) :
    writeMembers slots new l = l.map fun p => (p.1, write slots new p.2) := by
  induction l with
  | nil => rfl
  | cons p ms ih => exact congrArg ((p.1, write slots new p.2) :: ·) ih

theorem write_array (m : μ) (items : List (Value μ)) :
    write slots new (array m items)
      = .array m (storeItems slots new m (items.map (write slots new))) :=
  congrArg (fun l => Value.array m (storeItems slots new m l)) (writeItems_eq_map items)

theorem write_object (m : μ) (ms : List (String × Value μ)) :
    write slots new (object m ms)
      = .object m (storeMembers slots new m (ms.map fun p => (p.1, write slots new p.2))) :=
  congrArg (fun l => Value.object m (storeMembers slots new m l)) (writeMembers_eq_map ms)

@[simp] theorem mark?_write (v : Value μ) : (write slots new v).mark? = v.mark? := by
  cases v <;> rfl

/-- A part of a written tree is a part of the tree, written to, or a part of what
was put into a slot. -/
theorem contains_write {v a : Value μ} {k : Nat} (h : (write slots new v).Contains k a) :
    (∃ b, v.Contains k b ∧ a = write slots new b) ∨
      ∃ s ∈ slots, ∃ i j c, v.Contains i c ∧ c.mark? = some s.owner ∧ new.Contains j a ∧
        k = i + s.step.depth + j := by
  induction v using Value.ind generalizing a k with
  | null | bool | int | double | string =>
    cases h with
    | here => exact .inl ⟨_, .here _, rfl⟩
  | array m items ih =>
    rw [write_array] at h
    cases h with
    | here => exact .inl ⟨_, .here _, (write_array m items).symm⟩
    | item hx hc =>
      -- an item is one of the items before, written to, or has been put there
      rcases mem_storeItems hx with hx | ⟨rfl, i, hs⟩
      · obtain ⟨y, hy, rfl⟩ := List.mem_map.1 hx
        rcases ih y hy hc with ⟨b, hb, rfl⟩ | ⟨s, hs, i, j, c, hi, hm, hn, rfl⟩
        · exact .inl ⟨b, .item hy hb, rfl⟩
        · exact .inr ⟨s, hs, i, j, c, .item hy hi, hm, hn, rfl⟩
      · exact .inr ⟨_, hs, 0, k, _, .here _, rfl, hc, by simp⟩
  | object m ms ih =>
    rw [write_object] at h
    cases h with
    | here => exact .inl ⟨_, .here _, (write_object m ms).symm⟩
    | @member _ _ name x _ k hx hc =>
      rcases mem_storeMembers hx with hx | ⟨rfl, name, hs⟩
      · obtain ⟨p, hp, e⟩ := List.mem_map.1 hx
        obtain ⟨rfl, rfl⟩ := Prod.mk.inj e
        rcases ih p hp hc with ⟨b, hb, rfl⟩ | ⟨s, hs, i, j, c, hi, hm, hn, rfl⟩
        · exact .inl ⟨b, .member hp hb, rfl⟩
        · exact .inr ⟨s, hs, i + 1, j, c, .member hp hi, hm, hn, by omega⟩
      · exact .inr ⟨_, hs, 0, k, _, .here _, rfl, hc, by rw [Step.depth_field]; omega⟩

theorem mem_marks_write {v : Value μ} {m : μ} (h : m ∈ (write slots new v).marks) :
    m ∈ v.marks ∨ m ∈ new.marks := by
  obtain ⟨k, a, ha, hm⟩ := exists_contains_of_mem_marks _ h
  rcases contains_write ha with ⟨b, hb, rfl⟩ | ⟨_, _, _, _, _, _, _, hn, _⟩
  · exact .inl (hb.mem_marks (by simpa using hm))
  · exact .inr (hn.mem_marks hm)

/-- Distinct keys stay distinct. -/
theorem Distinct.write {v : Value μ} (hv : v.Distinct) (hn : new.Distinct) :
    (write slots new v).Distinct := by
  intro k m ms h
  rcases contains_write h with ⟨b, hb, e⟩ | ⟨_, _, _, j, _, _, _, hb, _⟩
  · cases b with
    | object m' ms' =>
      rw [write_object] at e
      obtain ⟨rfl, rfl⟩ := Value.object.inj e
      rw [storeMembers_eq_putEach]
      refine Assoc.nodup_keys_putEach ?_ _ _
      rw [Assoc.keys, List.map_map]
      exact hv k _ ms' hb
    | _ => cases e
  · exact hn j m ms hb

/-! ### Consistency after a write -/

/-- All containers that own a slot lie so that the slots are below `k` members. -/
def SlotsAt (v : Value μ) (slots : List (Slot μ)) (k : Nat) : Prop :=
  ∀ s ∈ slots, ∀ j c, v.Contains j c → c.mark? = some s.owner → j + s.step.depth = k

omit [DecidableEq μ] in
/-- In a consistent tree the slots of a path lie below as many members as the
path has fields, wherever their containers occur. -/
theorem Consistent.slotsAt {root : Value μ} (hc : root.Consistent) {steps : List Step}
    (ht : root.target steps = .ok slots) : root.SlotsAt slots (Path.depth steps) := by
  intro s hs j c hj hm
  have hf := found_of_target ht hs
  generalize Path.depth steps = k at hf ⊢
  cases hf with
  | member name h =>
    obtain ⟨rfl, rfl⟩ := hc hj h hm rfl
    rfl
  | item h _ =>
    obtain ⟨rfl, rfl⟩ := hc hj h hm rfl
    rfl

/-- **Consistency is kept by a write** of a value with marks of its own, if the
slots all lie below the same number of members. -/
theorem Consistent.write {v : Value μ} {k : Nat} (hv : v.Consistent) (hn : new.Consistent)
    (hfresh : ∀ m ∈ v.marks, m ∉ new.marks) (hs : v.SlotsAt slots k) :
    (write slots new v).Consistent := by
  intro j j' a a' m ha ha' hm hm'
  -- parts of the tree before and parts of `new` have no mark in common
  rcases contains_write ha with ⟨b, hb, rfl⟩ | ⟨s, hsm, i, i₂, c, hc, hcm, hb, rfl⟩
  · rw [mark?_write] at hm
    rcases contains_write ha' with ⟨b', hb', rfl⟩ | ⟨_, _, _, _, _, _, _, hb', _⟩
    · rw [mark?_write] at hm'
      obtain ⟨rfl, rfl⟩ := hv hb hb' hm hm'
      exact ⟨rfl, rfl⟩
    · exact absurd (hb'.mem_marks hm') (hfresh m (hb.mem_marks hm))
  · rcases contains_write ha' with ⟨b', hb', rfl⟩ | ⟨s', hsm', i', i₂', c', hc', hcm', hb', rfl⟩
    · rw [mark?_write] at hm'
      exact absurd (hb.mem_marks hm) (hfresh m (hb'.mem_marks hm'))
    · -- one part of `new`, below slots that lie equally deep
      obtain ⟨rfl, rfl⟩ := hn hb hb' hm hm'
      rw [hs s hsm i c hc hcm, hs s' hsm' i' c' hc' hcm']
      exact ⟨rfl, rfl⟩

end Value

end JsonPaths
