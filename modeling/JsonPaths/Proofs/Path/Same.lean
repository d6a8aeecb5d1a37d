/-
JsonPaths/Proofs/Path/Same.lean

Paths in values that are the same.

What a path reaches in two values that are the same is the same, hit by hit
(`Place.walk_same`), and so are the slots that it addresses (`Value.target_same`): a field
is taken in the items one by one, and whether an object has it depends on its keys, not on
their order.  If moreover every container has one partner, the same slots are written to
on both sides, and what is left is equal (`Value.write_same`).
-/
import JsonPaths.Proofs.Path.Related
import JsonPaths.Proofs.Path.Written
import JsonPaths.Proofs.Value.Position
import JsonPaths.Proofs.Value.Same

namespace JsonPaths

variable {μ ν : Type} {R : μ → ν → Prop}

/-! ### Containers that are the same -/

/-- Two maps have related values under the same keys. -/
theorem Assoc.rel_lookup_iff {κ α β : Type} [BEq κ] [LawfulBEq κ] {P : α → β → Prop}
    {as : List (κ × α)} {bs : List (κ × β)} :
    (∀ k, Option.Rel P (as.lookup k) (bs.lookup k)) ↔
      (∀ k, k ∈ keys as ↔ k ∈ keys bs) ∧
        ∀ k a b, as.lookup k = some a → bs.lookup k = some b → P a b := by
  constructor
  · intro h
    refine ⟨fun k => ?_, fun k a b ha hb => ?_⟩
    · rw [← isSome_lookup_iff, ← isSome_lookup_iff, (h k).isSome_eq]
    · have hk := h k
      rw [ha, hb] at hk
      cases hk with
      | some hab => exact hab
  · rintro ⟨hk, h⟩ k
    have hiff := hk k
    rw [← isSome_lookup_iff, ← isSome_lookup_iff] at hiff
    cases ha : as.lookup k <;> cases hb : bs.lookup k
    · exact .none
    · simp [ha, hb] at hiff
    · simp [ha, hb] at hiff
    · exact .some (h k _ _ ha hb)

namespace Value

variable {a : Value μ} {b : Value ν} {m : μ} {m' : ν}

theorem eq_number {q : Quantity} (h : a.quantity? = some q) :
    (∃ n, a = .int n) ∨ ∃ x, a = .double x := by
  cases a with
  | int n => exact .inl ⟨n, rfl⟩
  | double x => exact .inr ⟨x, rfl⟩
  | _ => cases h

section Number

-- a number has no parts: nothing is found in it and nothing is written to it
variable {q : Quantity} (h : a.quantity? = some q)

include h

theorem pick_number (name : String) : a.pick name = none := by
  rcases eq_number h with ⟨_, rfl⟩ | ⟨_, rfl⟩ <;> rfl

theorem slots_number (name : String) : a.slots name = [] := by
  rcases eq_number h with ⟨_, rfl⟩ | ⟨_, rfl⟩ <;> rfl

theorem write_number [DecidableEq μ] (slots : List (Slot μ)) (v : Value μ) :
    write slots v a = a := by
  rcases eq_number h with ⟨_, rfl⟩ | ⟨_, rfl⟩ <;> rfl

end Number

theorem quantity?_erase (a : Value μ) : a.erase.quantity? = a.quantity? := by
  cases a <;> rfl

theorem same_array_iff {as : List (Value μ)} {bs : List (Value ν)} :
    (array m as).Same R (.array m' bs) ↔ R m m' ∧ List.Forall₂ (Same R) as bs := by
  constructor
  · intro h
    cases h with
    | number hq _ => cases hq
    | array hm hl h => exact ⟨hm, List.forall₂_iff_getElem?.2 ⟨hl, h⟩⟩
  · rintro ⟨hm, h⟩
    obtain ⟨hl, h⟩ := List.forall₂_iff_getElem?.1 h
    exact .array hm hl h

theorem same_object_iff {as : List (String × Value μ)} {bs : List (String × Value ν)} :
    (object m as).Same R (.object m' bs) ↔
      R m m' ∧ ∀ k, Option.Rel (Same R) (as.lookup k) (bs.lookup k) := by
  constructor
  · intro h
    cases h with
    | number hq _ => cases hq
    | object hm hk h => exact ⟨hm, Assoc.rel_lookup_iff.2 ⟨hk, h⟩⟩
  · rintro ⟨hm, h⟩
    obtain ⟨hk, h⟩ := Assoc.rel_lookup_iff.1 h
    exact .object hm hk h

end Value

/-! ### Hits and places that are the same -/

/-- The two hits were read from related objects under one name and have the same value, or
gather the same hits in turn. -/
abbrev Hit.Same (R : μ → ν → Prop) : Hit μ (Value μ) → Hit ν (Value ν) → Prop :=
  Hit.Related R (Value.Same R)

/-- The two places have the same value, or the same hits in turn. -/
abbrev Place.Same (R : μ → ν → Prop) : Place μ (Value μ) → Place ν (Value ν) → Prop :=
  Place.Related R (Value.Same R)

/-! ### Reading -/

/-- A field that is taken in values that are the same hits the same. -/
theorem Value.pick_same (name : String) {a : Value μ} {b : Value ν} (h : a.Same R b) :
    Option.Rel (Hit.Same R) (a.pick name) (b.pick name) := by
  induction h with
  | null | bool | string => exact .none
  | number ha hb =>
    rw [pick_number ha, pick_number hb]
    exact .none
  | @array m m' as bs hm hl _ ih =>
    rw [pick_array, pick_array]
    refine Hit.related_gather (List.rel_filterMap (R := fun a b => Option.Rel (Hit.Same R)
      (a.pick name) (b.pick name)) (fun _ _ h => h) ?_)
    exact List.forall₂_iff_getElem?.2 ⟨hl, ih⟩
  | @object m m' as bs hm hk h _ =>
    rw [pick_object, pick_object]
    exact ((same_object_iff.1 (.object hm hk h)).2 name).map fun _ _ hab => .member hm hab

theorem Hit.pick_same (name : String) {h : Hit μ (Value μ)} {h' : Hit ν (Value ν)}
    (hh : h.Same R h') : Option.Rel (Hit.Same R) (h.pick name) (h'.pick name) := by
  induction hh with
  | member _ hv => exact Value.pick_same name hv
  | gathered hl _ ih =>
    rw [pick_gathered, pick_gathered]
    refine related_gather (List.rel_filterMap (R := fun h h' => Option.Rel (Hit.Same R)
      (h.pick name) (h'.pick name)) (fun _ _ h => h) ?_)
    exact List.forall₂_iff_getElem?.2 ⟨hl, ih⟩

namespace Place

variable {p : Place μ (Value μ)} {q : Place ν (Value ν)}

theorem step_number {a : Value μ} {x : Quantity} (h : a.quantity? = some x) (s : Step) :
    (value a).step s = none := by
  rcases Value.eq_number h with ⟨_, rfl⟩ | ⟨_, rfl⟩ <;> cases s <;> rfl

theorem slots_number {a : Value μ} {x : Quantity} (h : a.quantity? = some x) (s : Step) :
    (value a).slots s = [] := by
  rcases Value.eq_number h with ⟨_, rfl⟩ | ⟨_, rfl⟩ <;> cases s <;> rfl

/-- A step leads from places that are the same to places that are, or from neither. -/
theorem step_same (s : Step) (h : p.Same R q) :
    Option.Rel (Place.Same R) (p.step s) (q.step s) := by
  cases s with
  | field name =>
    cases h with
    | value hv =>
      rw [step_value_field, step_value_field]
      exact (Value.pick_same name hv).map fun _ _ => Hit.related_place
    | hits hs =>
      rw [step_hits_field, step_hits_field]
      exact (Hit.pick_same name (Hit.related_gathered_iff.2 hs)).map fun _ _ => Hit.related_place
  | index i =>
    cases h with
    | hits hs =>
      rw [step_hits_index, step_hits_index]
      exact (hs.getElem? i).map fun _ _ => Hit.related_place
    | @value v w hv =>
      cases hv with
      | array hm hl hv =>
        rw [step_array_index, step_array_index]
        have hitems := (Value.same_array_iff.1 (.array hm hl hv)).2
        exact (hitems.getElem? i).map fun _ _ => .value
      | number hv hw =>
        rw [step_number hv, step_number hw]
        exact .none
      | _ => exact .none

/-- **Two walks in step**: they stop at the same step, or lead to places that are the
same. -/
theorem walk_same (n : Nat) (ss : List Step) (h : p.Same R q) :
    (∃ o, p.walk n ss = .error o ∧ q.walk n ss = .error o) ∨
      ∃ p' q', p.walk n ss = .ok p' ∧ q.walk n ss = .ok q' ∧ p'.Same R q' := by
  induction ss generalizing p q n with
  | nil => exact .inr ⟨p, q, rfl, rfl, h⟩
  | cons s ss ih =>
    rw [walk_cons, walk_cons]
    have hstep := step_same s h
    cases hp : p.step s <;> cases hq : q.step s <;> rw [hp, hq] at hstep
    · exact .inl ⟨_, rfl, rfl⟩
    · cases hstep
    · cases hstep
    · cases hstep with
      | some hab => exact ih (n + 1) hab

end Place

/-! ### What stands at a place -/

theorem Value.erase_same {a : Value μ} {b : Value ν} (h : a.Same R b) :
    a.erase.Matches b.erase := by
  induction h with
  | null => exact .null
  | bool x => exact .bool x
  | string s => exact .string s
  | @number a b q ha hb =>
    exact .number ((quantity?_erase a).trans ha) ((quantity?_erase b).trans hb)
  | @array m m' as bs hm hl _ ih =>
    rw [erase_array, erase_array]
    refine same_array_iff.2 ⟨trivial, ?_⟩
    refine List.rel_map (R := fun a b => Matches a.erase b.erase) (fun _ _ h => h) ?_
    exact List.forall₂_iff_getElem?.2 ⟨hl, ih⟩
  | @object m m' as bs hm hk h ih =>
    rw [erase_object, erase_object]
    refine same_object_iff.2 ⟨trivial, fun k => ?_⟩
    rw [Assoc.lookup_map, Assoc.lookup_map]
    exact (Assoc.rel_lookup_iff.2 ⟨hk, ih⟩ k).map fun _ _ hab => hab

theorem Hit.plain_same {h : Hit μ (Value μ)} {h' : Hit ν (Value ν)} (hh : h.Same R h') :
    h.plain.Matches h'.plain := by
  induction hh with
  | member _ hv => exact Value.erase_same hv
  | @gathered hs hs' hl _ ih =>
    rw [plain_gathered, plain_gathered]
    refine Value.same_array_iff.2 ⟨trivial, ?_⟩
    refine List.rel_map (R := fun (h : Hit μ (Value μ)) (h' : Hit ν (Value ν)) =>
      h.plain.Matches h'.plain) (fun _ _ h => h) ?_
    exact List.forall₂_iff_getElem?.2 ⟨hl, ih⟩

theorem Place.plain_same {p : Place μ (Value μ)} {q : Place ν (Value ν)} (h : p.Same R q) :
    p.plain.Matches q.plain := by
  cases h with
  | value hv => exact Value.erase_same hv
  | hits hs => exact Hit.plain_same (Hit.related_gathered_iff.2 hs)

/-! ### Slots -/

/-- The two slots belong to related containers and are addressed by one step. -/
def Slot.Same (R : μ → ν → Prop) (s : Slot μ) (s' : Slot ν) : Prop :=
  R s.owner s'.owner ∧ s.step = s'.step

theorem Slot.same_biUnique (hR : Relator.BiUnique R) : Relator.BiUnique (Slot.Same R) := by
  constructor
  · rintro ⟨m, t⟩ ⟨m₂, t₂⟩ ⟨m', t'⟩ ⟨hm, ht⟩ ⟨hm₂, ht₂⟩
    exact Slot.mk.injEq .. ▸ ⟨hR.1 hm hm₂, ht.trans ht₂.symm⟩
  · rintro ⟨m, t⟩ ⟨m', t'⟩ ⟨m₂, t₂⟩ ⟨hm, ht⟩ ⟨hm₂, ht₂⟩
    exact Slot.mk.injEq .. ▸ ⟨hR.2 hm hm₂, ht.symm.trans ht₂⟩

theorem Value.slots_same (name : String) {a : Value μ} {b : Value ν} (h : a.Same R b) :
    List.Forall₂ (Slot.Same R) (a.slots name) (b.slots name) := by
  induction h with
  | null | bool | string => exact .nil
  | number ha hb =>
    rw [slots_number ha, slots_number hb]
    exact .nil
  | @array m m' as bs hm hl _ ih =>
    rw [slots_array, slots_array]
    refine List.rel_flatMap (R := fun a b => List.Forall₂ (Slot.Same R) (a.slots name)
      (b.slots name)) ?_ (fun _ _ h => h)
    exact List.forall₂_iff_getElem?.2 ⟨hl, ih⟩
  | @object m m' as bs hm hk h _ =>
    rw [slots_object, slots_object, ((same_object_iff.1 (.object hm hk h)).2 name).isSome_eq]
    split
    · exact .cons ⟨hm, rfl⟩ .nil
    · exact .nil

theorem Hit.slots_same (name : String) {h : Hit μ (Value μ)} {h' : Hit ν (Value ν)}
    (hh : h.Same R h') : List.Forall₂ (Slot.Same R) (h.slots name) (h'.slots name) := by
  induction hh with
  | member _ hv => exact Value.slots_same name hv
  | @gathered hs hs' hl _ ih =>
    rw [slots_gathered, slots_gathered]
    refine List.rel_flatMap (R := fun h h' => List.Forall₂ (Slot.Same R) (h.slots name)
      (h'.slots name)) ?_ (fun _ _ h => h)
    exact List.forall₂_iff_getElem?.2 ⟨hl, ih⟩

theorem Hit.source_same {h : Hit μ (Value μ)} {h' : Hit ν (Value ν)} (hh : h.Same R h') :
    Option.Rel (Slot.Same R) h.source h'.source := by
  cases hh with
  | member hm _ => exact .some ⟨hm, rfl⟩
  | gathered => exact .none

/-- A last step addresses slots that are the same. -/
theorem Place.slots_same (last : Step) {p : Place μ (Value μ)} {q : Place ν (Value ν)}
    (h : p.Same R q) : List.Forall₂ (Slot.Same R) (p.slots last) (q.slots last) := by
  cases last with
  | field name =>
    cases h with
    | hits hs => exact Hit.slots_same name (Hit.related_gathered_iff.2 hs)
    | @value v w hv =>
      cases hv with
      | object hm _ _ => exact .cons ⟨hm, rfl⟩ .nil
      | array hm hl hv => exact Value.slots_same name (.array hm hl hv)
      | number hv hw =>
        rw [slots_number hv, slots_number hw]
        exact .nil
      | _ => exact .nil
  | index i =>
    cases h with
    | @hits hs hs' hh =>
      show List.Forall₂ (Slot.Same R) (hs[i]?.bind Hit.source).toList
        (hs'[i]?.bind Hit.source).toList
      exact ((hh.getElem? i).bind fun _ _ => Hit.source_same).toList
    | @value v w hv =>
      cases hv with
      | @array m m' as bs hm hl hv =>
        show List.Forall₂ (Slot.Same R) (if i < as.length then _ else _)
          (if i < bs.length then _ else _)
        rw [hl]
        split
        · exact .cons ⟨hm, rfl⟩ .nil
        · exact .nil
      | number hv hw =>
        rw [slots_number hv, slots_number hw]
        exact .nil
      | _ => exact .nil

namespace Value

variable {a : Value μ} {b : Value ν}

/-- **A path addresses the same slots** in values that are the same, or stops at the same
obstacle. -/
theorem target_same (steps : List Step) (h : a.Same R b) :
    (∃ o, a.target steps = .error o ∧ b.target steps = .error o) ∨
      ∃ l l', a.target steps = .ok l ∧ b.target steps = .ok l' ∧
        List.Forall₂ (Slot.Same R) l l' := by
  rcases steps.eq_nil_or_concat' with rfl | ⟨init, last, rfl⟩
  · exact .inl ⟨.noStep, rfl, rfl⟩
  · simp only [target, reach, List.getLast?_append, List.getLast?_singleton,
      List.dropLast_concat, Option.some_or]
    rcases Place.walk_same 0 init (.value h) with ⟨o, ha, hb⟩ | ⟨p, q, ha, hb, hpq⟩
    · rw [ha, hb]
      exact .inl ⟨o, rfl, rfl⟩
    · simp only [ha, hb]
      have hslots := Place.slots_same last hpq
      cases hl : p.slots last <;> cases hl' : q.slots last <;> rw [hl, hl'] at hslots
      · exact .inl ⟨.noSlot, rfl, rfl⟩
      · cases hslots
      · cases hslots
      · exact .inr ⟨_, _, rfl, rfl, hslots⟩

/-! ### Partners -/

/-- Two marks of containers at one position. -/
def Partners (a : Value μ) (b : Value ν) (m : μ) (m' : ν) : Prop :=
  ∃ p x y, a.at? p = some x ∧ b.at? p = some y ∧ x.mark? = some m ∧ y.mark? = some m'

/-- Containers of equal values can be compared by any relation of those at one position. -/
theorem Same.of_at? (h : a.Matches b)
    (hR : ∀ p x y m m', a.at? p = some x → b.at? p = some y → x.mark? = some m →
      y.mark? = some m' → R m m') : a.Same R b := by
  induction h with
  | null => exact .null
  | bool x => exact .bool x
  | string s => exact .string s
  | number ha hb => exact .number ha hb
  | array _ hl _ ih =>
    refine .array (hR [] _ _ _ _ rfl rfl rfl rfl) hl fun i x y hx hy => ih i x y hx hy ?_
    exact fun p x' y' m m' hx' hy' => hR (.index i :: p) x' y' m m'
      (at?_cons_eq_some.2 ⟨x, hx, hx'⟩) (at?_cons_eq_some.2 ⟨y, hy, hy'⟩)
  | object _ hk _ ih =>
    refine .object (hR [] _ _ _ _ rfl rfl rfl rfl) hk fun k x y hx hy => ih k x y hx hy ?_
    exact fun p x' y' m m' hx' hy' => hR (.field k :: p) x' y' m m'
      (at?_cons_eq_some.2 ⟨x, hx, hx'⟩) (at?_cons_eq_some.2 ⟨y, hy, hy'⟩)

theorem Same.partners (h : a.Matches b) : a.Same (Partners a b) b :=
  h.of_at? fun p x y _ _ hx hy hm hm' => ⟨p, x, y, hx, hy, hm, hm'⟩

/-- In unshared values every container has one partner at most. -/
theorem partners_biUnique (ha : a.Unshared) (hb : b.Unshared) :
    Relator.BiUnique (Partners a b) := by
  constructor
  · rintro m m₂ m' ⟨p, x, y, hx, hy, hm, hm'⟩ ⟨q, x₂, y₂, hx₂, hy₂, hm₂, hm₂'⟩
    obtain rfl := hb hy hy₂ hm' hm₂'
    obtain rfl := Option.some.inj (hx.symm.trans hx₂)
    exact Option.some.inj (hm.symm.trans hm₂)
  · rintro m m' m₂ ⟨p, x, y, hx, hy, hm, hm'⟩ ⟨q, x₂, y₂, hx₂, hy₂, hm₂, hm₂'⟩
    obtain rfl := ha hx hx₂ hm hm₂
    obtain rfl := Option.some.inj (hy.symm.trans hy₂)
    exact Option.some.inj (hm'.symm.trans hm₂')

/-! ### Writing -/

section Writing

variable [DecidableEq μ] [DecidableEq ν] {slots : List (Slot μ)} {slots' : List (Slot ν)}

omit [DecidableEq μ] [DecidableEq ν] in
/-- A slot is written to exactly if the slot of the partner is. -/
theorem mem_slots_same (hR : Relator.BiUnique R)
    (hs : List.Forall₂ (Slot.Same R) slots slots') {m : μ} {m' : ν} (hm : R m m') (t : Step) :
    ⟨m, t⟩ ∈ slots ↔ ⟨m', t⟩ ∈ slots' :=
  List.rel_mem (Slot.same_biUnique hR) ⟨hm, rfl⟩ hs

/-- **The same write to values that are the same leaves equal values.** -/
theorem write_same (hR : Relator.BiUnique R) (hs : List.Forall₂ (Slot.Same R) slots slots')
    {v : Value μ} {w : Value ν} (hv : v.Matches w) (h : a.Same R b) :
    (write slots v a).Matches (write slots' w b) := by
  induction h with
  | null => exact .null
  | bool x => exact .bool x
  | string s => exact .string s
  | number ha hb =>
    rw [write_number ha, write_number hb]
    exact .number ha hb
  | @array m m' as bs hm hl _ ih =>
    rw [write_array, write_array]
    refine same_array_iff.2 ⟨trivial, List.forall₂_iff_rel_getElem?.2 fun i => ?_⟩
    rw [getElem?_storeItems, getElem?_storeItems]
    refine .ite ?_ (.some hv) ?_
    · rw [mem_slots_same hR hs hm, List.length_map, List.length_map, hl]
    · rw [List.getElem?_map, List.getElem?_map]
      exact ((List.forall₂_iff_getElem?.2 ⟨hl, ih⟩).getElem? i).map fun _ _ hab => hab
  | @object m m' as bs hm hk h ih =>
    rw [write_object, write_object]
    refine same_object_iff.2 ⟨trivial, fun k => ?_⟩
    rw [lookup_storeMembers, lookup_storeMembers]
    refine .ite (mem_slots_same hR hs hm _) (.some hv) ?_
    rw [Assoc.lookup_map, Assoc.lookup_map]
    exact (Assoc.rel_lookup_iff.2 ⟨hk, ih⟩ k).map fun _ _ hab => hab

end Writing

end Value

end JsonPaths
