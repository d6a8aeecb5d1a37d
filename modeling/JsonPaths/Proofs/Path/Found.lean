/-
JsonPaths/Proofs/Path/Found.lean

Where the places that a path reaches lie in the tree.

Every field step of a path goes through one member, also when it is taken in
all items of an array, and an index step goes through none.  So whatever a path
with `k` field steps reaches, gathered hits included, lies below `k` members of
the root (`found_of_reach`), and the slots that it addresses do so too, one
step further (`found_of_target`).  The traversals of the project are stated
here as operations on lists first.
-/
import Mathlib.Algebra.GroupWithZero.Nat
import Mathlib.Data.List.Induction
import JsonPaths.Path.Assign
import JsonPaths.Proofs.Assoc
import JsonPaths.Proofs.Value.Contains

namespace JsonPaths

variable {μ ν : Type}

/-! ### Traversals as operations on lists -/

/-- Induction on a hit, with the hypothesis for every hit that it gathers. -/
theorem Hit.ind {motive : Hit μ ν → Prop}
    (member : ∀ m name v, motive (.member m name v))
    (gathered : ∀ hs, (∀ h ∈ hs, motive h) → motive (.gathered hs)) (h : Hit μ ν) :
    motive h :=
  Hit.rec (motive_1 := motive) (motive_2 := fun l => ∀ h ∈ l, motive h) member gathered
    (by simp) (fun _ _ h t => List.forall_mem_cons.2 ⟨h, t⟩) h

theorem Value.pickItems_eq_filterMap (name : String) (l : List (Value μ)) :
    Value.pickItems name l = l.filterMap (Value.pick name) := by
  induction l with
  | nil => rfl
  | cons v vs ih =>
    show (v.pick name).toList ++ Value.pickItems name vs = _
    rw [ih, List.filterMap_cons]
    cases v.pick name <;> rfl

theorem Value.pick_array (name : String) (m : μ) (items : List (Value μ)) :
    (array m items).pick name = Hit.gather (items.filterMap (pick name)) :=
  congrArg Hit.gather (pickItems_eq_filterMap name items)

theorem Value.pick_object (name : String) (m : μ) (ms : List (String × Value μ)) :
    (object m ms).pick name = (ms.lookup name).map (.member m name) := rfl

theorem Hit.pickAll_eq_filterMap (name : String) (l : List (Hit μ (Value μ))) :
    Hit.pickAll name l = l.filterMap (Hit.pick name) := by
  induction l with
  | nil => rfl
  | cons h hs ih =>
    show (h.pick name).toList ++ Hit.pickAll name hs = _
    rw [ih, List.filterMap_cons]
    cases h.pick name <;> rfl

theorem Hit.pick_gathered (name : String) (hs : List (Hit μ (Value μ))) :
    (gathered hs).pick name = gather (hs.filterMap (pick name)) :=
  congrArg gather (pickAll_eq_filterMap name hs)

theorem Hit.plainAll_eq_map (l : List (Hit μ (Value μ))) :
    Hit.plainAll l = l.map Hit.plain := by
  induction l with
  | nil => rfl
  | cons h hs ih => exact congrArg (h.plain :: ·) ih

theorem Hit.plain_gathered (hs : List (Hit μ (Value μ))) :
    (gathered hs).plain = .array () (hs.map plain) :=
  congrArg (Value.array ()) (plainAll_eq_map hs)

theorem Value.slotsOfItems_eq_flatMap (name : String) (l : List (Value μ)) :
    Value.slotsOfItems name l = l.flatMap (Value.slots name) := by
  induction l with
  | nil => rfl
  | cons v vs ih =>
    rw [List.flatMap_cons]
    exact congrArg (v.slots name ++ ·) ih

theorem Value.slots_array (name : String) (m : μ) (items : List (Value μ)) :
    (array m items).slots name = items.flatMap (slots name) :=
  slotsOfItems_eq_flatMap name items

theorem Value.slots_object (name : String) (m : μ) (ms : List (String × Value μ)) :
    (object m ms).slots name
      = if (ms.lookup name).isSome then [⟨m, .field name⟩] else [] := rfl

theorem Hit.slotsOfAll_eq_flatMap (name : String) (l : List (Hit μ (Value μ))) :
    Hit.slotsOfAll name l = l.flatMap (Hit.slots name) := by
  induction l with
  | nil => rfl
  | cons h hs ih =>
    rw [List.flatMap_cons]
    exact congrArg (h.slots name ++ ·) ih

theorem Hit.slots_gathered (name : String) (hs : List (Hit μ (Value μ))) :
    (gathered hs).slots name = hs.flatMap (slots name) :=
  slotsOfAll_eq_flatMap name hs

theorem Place.step_value_field (name : String) (v : Value μ) :
    (value v).step (.field name) = (v.pick name).map Hit.place := rfl

theorem Place.step_hits_field (name : String) (hs : List (Hit μ (Value μ))) :
    (hits hs).step (.field name) = ((Hit.gathered hs).pick name).map Hit.place := rfl

theorem Place.step_array_index (i : Nat) (m : μ) (items : List (Value μ)) :
    (value (.array m items)).step (.index i) = items[i]?.map .value := rfl

theorem Place.step_hits_index (i : Nat) (hs : List (Hit μ (Value μ))) :
    (hits hs).step (.index i) = hs[i]?.map Hit.place := rfl

theorem Place.walk_cons (p : Place μ (Value μ)) (n : Nat) (s : Step) (ss : List Step) :
    p.walk n (s :: ss) = match p.step s with
      | none => .error (.unresolved n)
      | some q => q.walk (n + 1) ss := rfl

/-- A walk with one step more. -/
theorem Place.walk_concat_eq_ok {n : Nat} {init : List Step} {last : Step}
    {p r : Place μ (Value μ)} :
    p.walk n (init ++ [last]) = .ok r ↔ ∃ q, p.walk n init = .ok q ∧ q.step last = some r := by
  induction init generalizing p n with
  | nil =>
    rw [List.nil_append, walk_cons]
    show _ ↔ ∃ q, Except.ok p = .ok q ∧ q.step last = some r
    cases hs : p.step last with
    | none => simp [hs]
    | some q =>
      show Except.ok q = .ok r ↔ _
      simp [hs]
  | cons s ss ih =>
    rw [List.cons_append, walk_cons, walk_cons]
    cases p.step s with
    | none => simp
    | some q => exact ih

/-- A walk is taken in two parts; how many steps were taken before does not matter to
where it leads. -/
theorem Place.walk_append_eq_ok {n k : Nat} {a b : List Step} {p r : Place μ (Value μ)} :
    p.walk n (a ++ b) = .ok r ↔ ∃ q, p.walk n a = .ok q ∧ q.walk k b = .ok r := by
  induction b using List.reverseRecOn generalizing r with
  | nil =>
    rw [List.append_nil]
    constructor
    · intro h
      exact ⟨r, h, rfl⟩
    · rintro ⟨q, h, hr⟩
      obtain rfl := Except.ok.inj hr
      exact h
  | append_singleton b s ih =>
    rw [← List.append_assoc, walk_concat_eq_ok]
    constructor
    · rintro ⟨q, hq, hs⟩
      obtain ⟨q', ha, hb⟩ := ih.1 hq
      exact ⟨q', ha, walk_concat_eq_ok.2 ⟨q, hb, hs⟩⟩
    · rintro ⟨q', ha, hb⟩
      obtain ⟨q, hb, hs⟩ := walk_concat_eq_ok.1 hb
      exact ⟨q, ih.2 ⟨q', ha, hb⟩, hs⟩

/-- A walk stops at a step that leads nowhere, if at all. -/
theorem Place.walk_eq_error {n : Nat} {steps : List Step} {p : Place μ (Value μ)}
    {o : Obstacle} (h : p.walk n steps = .error o) : ∃ k, o = .unresolved k := by
  induction steps generalizing p n with
  | nil => cases h
  | cons s ss ih =>
    rw [walk_cons] at h
    cases hs : p.step s with
    | none =>
      rw [hs] at h
      exact ⟨n, (Except.error.inj h).symm⟩
    | some q =>
      rw [hs] at h
      exact ih h

theorem Hit.gather_eq_some {hs : List (Hit μ ν)} {h : Hit μ ν} :
    Hit.gather hs = some h ↔ hs ≠ [] ∧ h = .gathered hs := by
  cases hs with
  | nil => exact iff_of_false nofun fun h => h.1 rfl
  | cons g gs =>
    constructor
    · intro h
      exact ⟨List.cons_ne_nil g gs, (Option.some.inj h).symm⟩
    · rintro ⟨-, rfl⟩
      rfl

theorem Hit.gather_eq_none {hs : List (Hit μ ν)} : Hit.gather hs = none ↔ hs = [] := by
  cases hs with
  | nil => exact iff_of_true rfl rfl
  | cons g gs => exact iff_of_false nofun (List.cons_ne_nil g gs)

/-! ### Depth of steps -/

/-- The number of members that a step goes through. -/
def Step.depth : Step → Nat
  | .field _ => 1
  | .index _ => 0

@[simp] theorem Step.depth_field (name : String) : (Step.field name).depth = 1 := rfl

@[simp] theorem Step.depth_index (i : Nat) : (Step.index i).depth = 0 := rfl

theorem Step.exists_index_of_depth {s : Step} (h : s.depth = 0) : ∃ i, s = .index i := by
  cases s with
  | field name => exact absurd h Nat.one_ne_zero
  | index i => exact ⟨i, rfl⟩

/-- The number of members that a path goes through. -/
def Path.depth (steps : List Step) : Nat := (steps.map Step.depth).sum

@[simp] theorem Path.depth_nil : Path.depth [] = 0 := rfl

@[simp] theorem Path.depth_cons (s : Step) (ss : List Step) :
    Path.depth (s :: ss) = s.depth + Path.depth ss := by
  simp [Path.depth]

@[simp] theorem Path.depth_append (a b : List Step) :
    Path.depth (a ++ b) = Path.depth a + Path.depth b := by
  simp [Path.depth]

/-! ### Reached places -/

/-- A hit that was read in `root`, its values lying below `k` members. -/
inductive Hit.Found (root : Value μ) : Nat → Hit μ (Value μ) → Prop
  | member {k : Nat} {m : μ} {ms : List (String × Value μ)} {name : String} {v : Value μ} :
      root.Contains k (.object m ms) → ms.lookup name = some v →
      Found root (k + 1) (.member m name v)
  | gathered {k : Nat} {hs : List (Hit μ (Value μ))} :
      (∀ h ∈ hs, Found root k h) → Found root k (.gathered hs)

/-- A place in `root`, its values lying below `k` members. -/
def Place.Found (root : Value μ) (k : Nat) : Place μ (Value μ) → Prop
  | .value v => root.Contains k v
  | .hits hs => ∀ h ∈ hs, h.Found root k

theorem Value.found_of_pick {root : Value μ} {k : Nat} {name : String} {v : Value μ}
    {h : Hit μ (Value μ)} (hv : root.Contains k v) (hp : v.pick name = some h) :
    h.Found root (k + 1) := by
  induction v using Value.ind generalizing h with
  | null | bool | int | double | string => cases hp
  | array m items ih =>
    rw [pick_array, Hit.gather_eq_some] at hp
    obtain ⟨-, rfl⟩ := hp
    refine .gathered fun h' hh => ?_
    obtain ⟨w, hw, hp⟩ := List.mem_filterMap.1 hh
    exact ih w hw (hv.item_of hw) hp
  | object m ms _ =>
    rw [pick_object, Option.map_eq_some_iff] at hp
    obtain ⟨w, hl, rfl⟩ := hp
    exact .member hv hl

theorem Hit.Found.of_member {root : Value μ} {k : Nat} {m : μ} {name : String} {v : Value μ}
    (h : (Hit.member m name v).Found root k) :
    ∃ j ms, k = j + 1 ∧ root.Contains j (.object m ms) ∧ ms.lookup name = some v := by
  cases h with
  | member hc hl => exact ⟨_, _, rfl, hc, hl⟩

theorem Hit.Found.contains {root : Value μ} {k : Nat} {m : μ} {name : String} {v : Value μ}
    (h : (Hit.member m name v).Found root k) : root.Contains k v := by
  obtain ⟨j, ms, rfl, hc, hl⟩ := h.of_member
  exact hc.member_of (Assoc.mem_of_lookup hl)

theorem Hit.Found.of_gathered {root : Value μ} {k : Nat} {hs : List (Hit μ (Value μ))}
    (h : (Hit.gathered hs).Found root k) : ∀ h ∈ hs, h.Found root k := by
  cases h with
  | gathered h => exact h

theorem Hit.found_of_pick {root : Value μ} {k : Nat} {name : String} {h h' : Hit μ (Value μ)}
    (hf : h.Found root k) (hp : h.pick name = some h') : h'.Found root (k + 1) := by
  induction h using Hit.ind generalizing h' with
  | member m n v => exact Value.found_of_pick hf.contains hp
  | gathered hs ih =>
    rw [pick_gathered, gather_eq_some] at hp
    obtain ⟨-, rfl⟩ := hp
    refine .gathered fun h' hh => ?_
    obtain ⟨g, hg, hp⟩ := List.mem_filterMap.1 hh
    exact ih g hg (hf.of_gathered g hg) hp

namespace Place

theorem Found.of_hit {root : Value μ} {k : Nat} {h : Hit μ (Value μ)} (hf : h.Found root k) :
    h.place.Found root k := by
  cases h with
  | member m name v => exact hf.contains
  | gathered hs => exact hf.of_gathered

/-- A step goes down as many members as it has. -/
theorem found_of_step {root : Value μ} {k : Nat} {s : Step} {p q : Place μ (Value μ)}
    (hf : p.Found root k) (hs : p.step s = some q) : q.Found root (k + s.depth) := by
  cases s with
  | field name =>
    cases p with
    | value v =>
      obtain ⟨h, hp, rfl⟩ := Option.map_eq_some_iff.1 hs
      exact .of_hit (Value.found_of_pick hf hp)
    | hits hs' =>
      obtain ⟨h, hp, rfl⟩ := Option.map_eq_some_iff.1 hs
      exact .of_hit (Hit.found_of_pick (.gathered hf) hp)
  | index i =>
    cases p with
    | value v =>
      cases v with
      | array m items =>
        obtain ⟨w, hw, rfl⟩ := Option.map_eq_some_iff.1 hs
        exact hf.item_of (List.mem_of_getElem? hw)
      | _ => cases hs
    | hits hs' =>
      obtain ⟨h, hh, rfl⟩ := Option.map_eq_some_iff.1 hs
      exact .of_hit (hf h (List.mem_of_getElem? hh))

theorem found_of_walk {root : Value μ} {k n : Nat} {steps : List Step}
    {p q : Place μ (Value μ)} (hf : p.Found root k) (hw : p.walk n steps = .ok q) :
    q.Found root (k + Path.depth steps) := by
  induction steps generalizing p k n with
  | nil =>
    obtain rfl : p = q := Except.ok.inj hw
    exact hf
  | cons s ss ih =>
    rw [walk_cons] at hw
    cases hs : p.step s with
    | none => simp [hs] at hw
    | some r =>
      rw [hs] at hw
      have := ih (found_of_step hf hs) hw
      simpa [Nat.add_assoc] using this

end Place

/-- What a path reaches lies below as many members as the path has fields. -/
theorem Value.found_of_reach {root : Value μ} {steps : List Step} {p : Place μ (Value μ)}
    (h : root.reach steps = .ok p) : p.Found root (Path.depth steps) := by
  have := Place.found_of_walk (k := 0) (p := .value root) (Contains.here root) h
  simpa using this

/-! ### Addressed slots -/

/-- A slot of a container in `root`, what it holds lying below `k` members.  An
object has slots for members that it lacks, an array none past its end. -/
inductive Slot.Found (root : Value μ) : Nat → Slot μ → Prop
  | member {k : Nat} {m : μ} {ms : List (String × Value μ)} (name : String) :
      root.Contains k (.object m ms) → Found root (k + 1) ⟨m, .field name⟩
  | item {k : Nat} {m : μ} {items : List (Value μ)} {i : Nat} :
      root.Contains k (.array m items) → i < items.length → Found root k ⟨m, .index i⟩

/-- The slots of a field are members that are present, in objects reached
through arrays only. -/
theorem Value.mem_slots {name : String} {v : Value μ} {s : Slot μ} (h : s ∈ v.slots name) :
    ∃ m ms, v.Contains 0 (.object m ms) ∧ (ms.lookup name).isSome ∧ s = ⟨m, .field name⟩ := by
  induction v using Value.ind with
  | null | bool | int | double | string => cases h
  | array m items ih =>
    rw [slots_array, List.mem_flatMap] at h
    obtain ⟨w, hw, h⟩ := h
    obtain ⟨m', ms, hc, hl, rfl⟩ := ih w hw h
    exact ⟨m', ms, .item hw hc, hl, rfl⟩
  | object m ms _ =>
    rw [slots_object] at h
    split at h
    · next hl =>
      obtain rfl := List.mem_singleton.1 h
      exact ⟨m, ms, .here _, hl, rfl⟩
    · simp at h

/-- `h.Holds m name v`: one of the hits in `h` is the member `name` of the object
`m`, with the value `v`. -/
inductive Hit.Holds : Hit μ ν → μ → String → ν → Prop
  | member (m : μ) (name : String) (v : ν) : Holds (.member m name v) m name v
  | gathered {h : Hit μ ν} {hs : List (Hit μ ν)} {m : μ} {name : String} {v : ν} :
      h ∈ hs → Holds h m name v → Holds (.gathered hs) m name v

theorem Hit.Found.of_holds {root : Value μ} {k : Nat} {h : Hit μ (Value μ)} {m : μ}
    {name : String} {v : Value μ} (hf : h.Found root k) (hh : h.Holds m name v) :
    (Hit.member m name v).Found root k := by
  induction hh with
  | member m name v => exact hf
  | gathered hm _ ih => exact ih (hf.of_gathered _ hm)

theorem Hit.mem_slots {name : String} {h : Hit μ (Value μ)} {s : Slot μ}
    (hs : s ∈ h.slots name) : ∃ m n v, h.Holds m n v ∧ s ∈ v.slots name := by
  induction h using Hit.ind with
  | member m n v => exact ⟨m, n, v, .member m n v, hs⟩
  | gathered hs' ih =>
    rw [slots_gathered, List.mem_flatMap] at hs
    obtain ⟨g, hg, hs⟩ := hs
    obtain ⟨m, n, v, hh, hs⟩ := ih g hg hs
    exact ⟨m, n, v, .gathered hg hh, hs⟩

/-- What a field finds in a value is in the slots of that field. -/
theorem Value.mem_slots_of_pick {name n : String} {v w : Value μ} {h : Hit μ (Value μ)}
    {m : μ} (hp : v.pick name = some h) (hh : h.Holds m n w) :
    ⟨m, .field n⟩ ∈ v.slots name := by
  induction v using Value.ind generalizing h with
  | null | bool | int | double | string => cases hp
  | array m' items ih =>
    rw [pick_array, Hit.gather_eq_some] at hp
    obtain ⟨-, rfl⟩ := hp
    cases hh with
    | gathered hm hh =>
      obtain ⟨x, hx, hp⟩ := List.mem_filterMap.1 hm
      rw [slots_array]
      exact List.mem_flatMap.2 ⟨x, hx, ih x hx hp hh⟩
  | object m' ms _ =>
    rw [pick_object, Option.map_eq_some_iff] at hp
    obtain ⟨x, hl, rfl⟩ := hp
    cases hh with
    | member => simp [slots_object, hl]

theorem Hit.mem_slots_of_pick {name n : String} {w : Value μ} {h h' : Hit μ (Value μ)}
    {m : μ} (hp : h.pick name = some h') (hh : h'.Holds m n w) :
    ⟨m, .field n⟩ ∈ h.slots name := by
  induction h using Hit.ind generalizing h' with
  | member m' n' v => exact Value.mem_slots_of_pick hp hh
  | gathered hs ih =>
    rw [pick_gathered, gather_eq_some] at hp
    obtain ⟨-, rfl⟩ := hp
    cases hh with
    | gathered hm hh =>
      obtain ⟨x, hx, hp⟩ := List.mem_filterMap.1 hm
      rw [slots_gathered]
      exact List.mem_flatMap.2 ⟨x, hx, ih x hx hp hh⟩

/-- A field finds something in a value where it has slots. -/
theorem Value.pick_eq_none {name : String} {v : Value μ} (hp : v.pick name = none) :
    v.slots name = [] := by
  induction v using Value.ind with
  | null | bool | int | double | string => rfl
  | array m items ih =>
    rw [slots_array, List.flatMap_eq_nil_iff]
    intro x hx
    refine ih x hx (Option.eq_none_iff_forall_ne_some.2 fun h hh => ?_)
    have hm : h ∈ items.filterMap (Value.pick name) := List.mem_filterMap.2 ⟨x, hx, hh⟩
    rw [pick_array, Hit.gather_eq_none] at hp
    exact List.not_mem_nil (hp ▸ hm)
  | object m ms _ =>
    rw [pick_object, Option.map_eq_none_iff] at hp
    rw [slots_object, hp]
    rfl

theorem Hit.pick_eq_none {name : String} {h : Hit μ (Value μ)} (hp : h.pick name = none) :
    h.slots name = [] := by
  induction h using Hit.ind with
  | member m n v => exact Value.pick_eq_none hp
  | gathered hs ih =>
    rw [slots_gathered, List.flatMap_eq_nil_iff]
    intro x hx
    refine ih x hx (Option.eq_none_iff_forall_ne_some.2 fun h hh => ?_)
    have hm : h ∈ hs.filterMap (Hit.pick name) := List.mem_filterMap.2 ⟨x, hx, hh⟩
    rw [pick_gathered, gather_eq_none] at hp
    exact List.not_mem_nil (hp ▸ hm)

theorem Value.found_of_mem_slots {root v : Value μ} {k : Nat} {name : String} {s : Slot μ}
    (hv : root.Contains k v) (hs : s ∈ v.slots name) : s.Found root (k + 1) := by
  obtain ⟨m, ms, hc, -, rfl⟩ := mem_slots hs
  exact .member name (hv.trans hc)

/-- A last index step addresses an item of an array, or the member that a
gathered hit was read from. -/
theorem Place.mem_slots_index {p : Place μ (Value μ)} {i : Nat} {s : Slot μ}
    (hs : s ∈ p.slots (.index i)) :
    (∃ m items, p = .value (.array m items) ∧ i < items.length ∧ s = ⟨m, .index i⟩) ∨
      ∃ hs m name v, p = .hits hs ∧ hs[i]? = some (.member m name v) ∧
        s = ⟨m, .field name⟩ := by
  cases p with
  | value v =>
    cases v with
    | array m items =>
      change s ∈ (if i < items.length then [⟨m, .index i⟩] else []) at hs
      split at hs
      · next hi => exact .inl ⟨m, items, rfl, hi, List.mem_singleton.1 hs⟩
      · simp at hs
    | _ => cases hs
  | hits hs' =>
    obtain ⟨h, hh, hs⟩ := Option.bind_eq_some_iff.1 (Option.mem_toList.1 hs)
    cases h with
    | gathered => cases hs
    | member m name v => exact .inr ⟨hs', m, name, v, rfl, hh, (Option.some.inj hs).symm⟩

/-- Where a field is taken in an array or in gathered hits, its slots are members
that are present. -/
theorem Place.mem_slots_field {root : Value μ} {k : Nat} {name : String} {p : Place μ (Value μ)}
    {s : Slot μ} (hf : p.Found root k) (hobj : ∀ m ms, p ≠ .value (.object m ms))
    (hs : s ∈ p.slots (.field name)) : ∃ m ms, root.Contains k (.object m ms) ∧
      (ms.lookup name).isSome ∧ s = ⟨m, .field name⟩ := by
  cases p with
  | value v =>
    have hs : s ∈ v.slots name := by
      cases v with
      | object m ms => exact absurd rfl (hobj m ms)
      | _ => exact hs
    obtain ⟨m, ms, hc, hl, e⟩ := Value.mem_slots hs
    exact ⟨m, ms, by simpa using hf.trans hc, hl, e⟩
  | hits hs' =>
    obtain ⟨m', n, v, hh, hs⟩ := Hit.mem_slots (h := .gathered hs') hs
    have hv := ((Hit.Found.gathered hf).of_holds hh).contains
    obtain ⟨m, ms, hc, hl, e⟩ := Value.mem_slots hs
    exact ⟨m, ms, by simpa using hv.trans hc, hl, e⟩

/-- The slots that a last step addresses lie one step below the place. -/
theorem Place.found_of_mem_slots {root : Value μ} {k : Nat} {last : Step}
    {p : Place μ (Value μ)} {s : Slot μ} (hf : p.Found root k) (hs : s ∈ p.slots last) :
    s.Found root (k + last.depth) := by
  cases last with
  | field name =>
    cases p with
    | value v =>
      cases v with
      | object m ms =>
        obtain rfl := List.mem_singleton.1 hs
        exact .member name hf
      | array m items => exact Value.found_of_mem_slots hf hs
      | _ => cases hs
    | hits hs' =>
      have hs : s ∈ (Hit.gathered hs').slots name := hs
      obtain ⟨m, n, v, hh, hs⟩ := Hit.mem_slots hs
      exact Value.found_of_mem_slots (Hit.Found.of_holds (.gathered hf) hh).contains hs
  | index i =>
    rcases mem_slots_index hs with ⟨m, items, rfl, hi, rfl⟩ | ⟨hs', m, name, v, rfl, hh, rfl⟩
    · exact .item hf hi
    · obtain ⟨j, ms, rfl, hc, -⟩ := (hf _ (List.mem_of_getElem? hh)).of_member
      exact .member name hc

/-- What a path addresses: the slots of the place before its last step. -/
theorem Value.target_concat_eq_ok {root : Value μ} {init : List Step} {last : Step}
    {slots : List (Slot μ)} : root.target (init ++ [last]) = .ok slots ↔
      ∃ p, root.reach init = .ok p ∧ p.slots last = slots ∧ slots ≠ [] := by
  simp only [target, List.getLast?_append, List.getLast?_singleton, List.dropLast_concat,
    Option.some_or]
  cases hp : root.reach init with
  | error o => simp
  | ok p =>
    cases hs : p.slots last with
    | nil =>
      simp only [hs, reduceCtorEq, Except.ok.injEq, exists_eq_left', ne_eq, false_iff, not_and]
      exact fun h hne => hne h.symm
    | cons s ss => simpa [hs] using fun h => by simp [← h]

theorem Value.target_eq_ok {root : Value μ} {steps : List Step} {slots : List (Slot μ)}
    (h : root.target steps = .ok slots) : ∃ init last p, steps = init ++ [last] ∧
      root.reach init = .ok p ∧ p.slots last = slots ∧ slots ≠ [] := by
  rcases steps.eq_nil_or_concat' with rfl | ⟨init, last, rfl⟩
  · cases h
  · obtain ⟨p, hp, hs, hne⟩ := target_concat_eq_ok.1 h
    exact ⟨init, last, p, rfl, hp, hs, hne⟩

/-- The slots that a path addresses lie below as many members as the path has
fields. -/
theorem Value.found_of_target {root : Value μ} {steps : List Step} {slots : List (Slot μ)}
    (h : root.target steps = .ok slots) {s : Slot μ} (hs : s ∈ slots) :
    s.Found root (Path.depth steps) := by
  obtain ⟨init, last, p, rfl, hp, rfl, -⟩ := target_eq_ok h
  simpa using Place.found_of_mem_slots (found_of_reach hp) hs

end JsonPaths
