/-
JsonPaths/Proofs/Path/Effect.lean

The exact effect of an assignment.

`Value.Addressed` says by reading alone which positions a path addresses, with a case for
each thing that its last step can meet.  The slots of a field are looked for by a recursion
of their own; they are those of the objects that indexes lead to from where the field is
taken (`Place.mem_slots_field_iff`).  So in a tree whose containers are at one position
each, the slots of a path lie at the addressed positions and nowhere else
(`spot_iff_addressed`), and an assignment puts the new value there and leaves every other
node as it was (`effect_of_assign`).
-/
import JsonPaths.Proofs.Except
import JsonPaths.Proofs.Path.Update

namespace JsonPaths

variable {μ : Type}

/-! ### Slots behind indexes -/

theorem Place.walk_cons_eq_ok {n k : Nat} {s : Step} {ss : List Step}
    {p r : Place μ (Value μ)} :
    p.walk n (s :: ss) = .ok r ↔ ∃ q, p.step s = some q ∧ q.walk k ss = .ok r := by
  have hone : ∀ q, p.walk n [s] = .ok q ↔ p.step s = some q := by
    intro q
    rw [walk_cons]
    cases p.step s with
    | none => exact iff_of_false nofun nofun
    | some q' =>
      show Except.ok q' = .ok q ↔ _
      simp
  refine (walk_append_eq_ok (k := k) (a := [s])).trans ?_
  simp only [hone]

/-- `p.Meets name m`: indexes lead from a place to the object `m`, which has the member
`name`. -/
def Place.Meets (p : Place μ (Value μ)) (name : String) (m : μ) : Prop :=
  ∃ (is : List Nat) (ms : List (String × Value μ)),
    p.walk 0 (is.map .index) = .ok (.value (.object m ms)) ∧ (ms.lookup name).isSome

namespace Place

variable {name : String} {m : μ}

theorem meets_of_step {p q : Place μ (Value μ)} {i : Nat} (hs : p.step (.index i) = some q)
    (h : q.Meets name m) : p.Meets name m := by
  obtain ⟨is, ms, hw, hl⟩ := h
  exact ⟨i :: is, ms, walk_cons_eq_ok.2 ⟨q, hs, hw⟩, hl⟩

/-- What is met from a place that is no object is met behind an index. -/
theorem exists_step_of_meets {p : Place μ (Value μ)}
    (hobj : ∀ m ms, p ≠ .value (.object m ms)) (h : p.Meets name m) :
    ∃ i q, p.step (.index i) = some q ∧ q.Meets name m := by
  obtain ⟨is, ms, hw, hl⟩ := h
  cases is with
  | nil => exact absurd (Except.ok.inj hw) (hobj m ms)
  | cons i is =>
    obtain ⟨q, hq, hw⟩ := walk_cons_eq_ok.1 hw
    exact ⟨i, q, hq, is, ms, hw, hl⟩

/-- No index leads on from an object. -/
theorem meets_object {m' : μ} {ms : List (String × Value μ)} :
    (Place.value (.object m' ms)).Meets name m ↔ (ms.lookup name).isSome ∧ m = m' := by
  constructor
  · rintro ⟨is, ms', hw, hl⟩
    cases is with
    | nil =>
      cases hw
      exact ⟨hl, rfl⟩
    | cons i is =>
      obtain ⟨q, hq, -⟩ := walk_cons_eq_ok (k := 0).1 hw
      cases hq
  · rintro ⟨hl, rfl⟩
    exact ⟨[], ms, rfl, hl⟩

end Place

/-- The slots of a field in a value are in the objects that are met from it. -/
theorem Value.mem_slots_iff {name : String} {v : Value μ} {s : Slot μ} :
    s ∈ v.slots name ↔ ∃ m, (Place.value v).Meets name m ∧ s = ⟨m, .field name⟩ := by
  induction v using Value.ind with
  | null | bool | int | double | string =>
    refine iff_of_false List.not_mem_nil ?_
    rintro ⟨m, h, -⟩
    obtain ⟨i, q, hq, -⟩ := Place.exists_step_of_meets nofun h
    cases hq
  | array m' items ih =>
    rw [slots_array, List.mem_flatMap]
    constructor
    · rintro ⟨w, hw, hs⟩
      obtain ⟨m, hm, rfl⟩ := (ih w hw).1 hs
      obtain ⟨i, hi⟩ := List.mem_iff_getElem?.1 hw
      refine ⟨m, Place.meets_of_step (i := i) (q := .value w) ?_ hm, rfl⟩
      rw [Place.step_array_index, hi, Option.map_some]
    · rintro ⟨m, h, rfl⟩
      obtain ⟨i, q, hq, hm⟩ := Place.exists_step_of_meets nofun h
      rw [Place.step_array_index, Option.map_eq_some_iff] at hq
      obtain ⟨w, hw, rfl⟩ := hq
      have hw := List.mem_of_getElem? hw
      exact ⟨w, hw, (ih w hw).2 ⟨m, hm, rfl⟩⟩
  | object m' ms _ =>
    simp only [Place.meets_object, slots_object]
    by_cases hl : (ms.lookup name).isSome
    · simp [hl]
    · simp [hl]

theorem Hit.mem_slots_iff {name : String} {h : Hit μ (Value μ)} {s : Slot μ} :
    s ∈ h.slots name ↔ ∃ m, h.place.Meets name m ∧ s = ⟨m, .field name⟩ := by
  induction h using Hit.ind with
  | member m' n v => exact Value.mem_slots_iff
  | gathered hs ih =>
    rw [slots_gathered, List.mem_flatMap]
    constructor
    · rintro ⟨g, hg, hs'⟩
      obtain ⟨m, hm, rfl⟩ := (ih g hg).1 hs'
      obtain ⟨i, hi⟩ := List.mem_iff_getElem?.1 hg
      refine ⟨m, Place.meets_of_step (i := i) ?_ hm, rfl⟩
      show (Place.hits hs).step (.index i) = _
      rw [Place.step_hits_index, hi, Option.map_some]
    · rintro ⟨m, h, rfl⟩
      obtain ⟨i, q, hq, hm⟩ := Place.exists_step_of_meets nofun h
      change (Place.hits hs).step (.index i) = _ at hq
      rw [Place.step_hits_index, Option.map_eq_some_iff] at hq
      obtain ⟨g, hg, rfl⟩ := hq
      have hg := List.mem_of_getElem? hg
      exact ⟨g, hg, (ih g hg).2 ⟨m, hm, rfl⟩⟩

/-- Where a last field step is not taken in an object, its slots are in the objects that
are met. -/
theorem Place.mem_slots_field_iff {p : Place μ (Value μ)} {name : String} {s : Slot μ}
    (hobj : ∀ m ms, p ≠ .value (.object m ms)) :
    s ∈ p.slots (.field name) ↔ ∃ m, p.Meets name m ∧ s = ⟨m, .field name⟩ := by
  cases p with
  | value v =>
    cases v with
    | object m ms => exact absurd rfl (hobj m ms)
    | _ => exact Value.mem_slots_iff
  | hits hs => exact Hit.mem_slots_iff (h := .gathered hs)

/-! ### Addressed positions -/

namespace Value

/-- The positions that a path addresses, by its steps before the last one and its last
one. -/
inductive Addressed (root : Value μ) (init : List Step) : Step → List Step → Prop
  /-- A field of an object is addressed whether the object has it or not. -/
  | member {name : String} {m : μ} {ms : List (String × Value μ)} {p : List Step} :
      root.reach init = .ok (.value (.object m ms)) → root.at? p = some (.object m ms) →
      Addressed root init (.field name) (p ++ [.field name])
  /-- A field of an array, stored or gathered, is addressed in every object that is met
  there through arrays only and has it. -/
  | fanned {name : String} {is : List Nat} {m : μ} {ms : List (String × Value μ)}
      {p : List Step} :
      is ≠ [] → root.reach (init ++ is.map .index) = .ok (.value (.object m ms)) →
      (ms.lookup name).isSome → root.at? p = some (.object m ms) →
      Addressed root init (.field name) (p ++ [.field name])
  /-- An index of a stored array. -/
  | item {i : Nat} {m : μ} {items : List (Value μ)} {p : List Step} :
      root.reach init = .ok (.value (.array m items)) → i < items.length →
      root.at? p = some (.array m items) →
      Addressed root init (.index i) (p ++ [.index i])
  /-- An index of a gathered list addresses the member that the hit was read from. -/
  | hit {i : Nat} {hs : List (Hit μ (Value μ))} {m : μ} {name : String} {v : Value μ}
      {ms : List (String × Value μ)} {p : List Step} :
      root.reach init = .ok (.hits hs) → hs[i]? = some (.member m name v) →
      root.at? p = some (.object m ms) →
      Addressed root init (.index i) (p ++ [.field name])

variable {root : Value μ} {init : List Step} {last : Step} {q : List Step}

theorem reach_append_eq_ok {rest : List Step} {r : Place μ (Value μ)} :
    root.reach (init ++ rest) = .ok r ↔ ∃ p, root.reach init = .ok p ∧ p.walk 0 rest = .ok r :=
  Place.walk_append_eq_ok

theorem contains_of_reach {steps : List Step} {v : Value μ}
    (h : root.reach steps = .ok (.value v)) : root.Contains (Path.depth steps) v :=
  found_of_reach h

/-- The member that a hit was read from. -/
theorem exists_owner_of_hit {steps : List Step} {hs : List (Hit μ (Value μ))} {i : Nat}
    {m : μ} {name : String} {v : Value μ} (h : root.reach steps = .ok (.hits hs))
    (hi : hs[i]? = some (.member m name v)) :
    ∃ k ms, root.Contains k (.object m ms) ∧ ms.lookup name = some v := by
  obtain ⟨k, ms, -, hc, hl⟩ := (found_of_reach h _ (List.mem_of_getElem? hi)).of_member
  exact ⟨k, ms, hc, hl⟩

/-- The slots of a path lie at positions that it addresses. -/
theorem addressed_of_spot (hc : root.Consistent) {slots : List (Slot μ)}
    (ht : root.target (init ++ [last]) = .ok slots) (hq : root.Spot slots q) :
    root.Addressed init last q := by
  obtain ⟨place, hreach, rfl, -⟩ := target_concat_eq_ok.1 ht
  obtain ⟨p, c, s, hs, hp, hm, rfl⟩ := hq
  -- the container at `p` is the one that reading meets, since it has its mark
  have howner : ∀ {k : Nat} {c' : Value μ}, root.Contains k c' → c'.mark? = some s.owner →
      c = c' := fun hc' hm' => (hc (contains_of_at? hp) hc' hm hm').1
  cases last with
  | field name =>
    by_cases hobj : ∃ m ms, place = .value (.object m ms)
    · obtain ⟨m, ms, rfl⟩ := hobj
      obtain rfl := List.mem_singleton.1 hs
      obtain rfl := howner (contains_of_reach hreach) rfl
      exact .member hreach hp
    · have hobj : ∀ m ms, place ≠ .value (.object m ms) := by simpa using hobj
      obtain ⟨m, ⟨is, ms, hw, hl⟩, rfl⟩ := (Place.mem_slots_field_iff hobj).1 hs
      have hne : is ≠ [] := by
        rintro rfl
        exact hobj m ms (Except.ok.inj hw)
      have hreach := reach_append_eq_ok.2 ⟨place, hreach, hw⟩
      obtain rfl := howner (contains_of_reach hreach) rfl
      exact .fanned hne hreach hl hp
  | index i =>
    rcases Place.mem_slots_index hs with ⟨m, items, rfl, hi, rfl⟩ | ⟨hs', m, name, v, rfl, hh, rfl⟩
    · obtain rfl := howner (contains_of_reach hreach) rfl
      exact .item hreach hi hp
    · obtain ⟨k, ms, hms, -⟩ := exists_owner_of_hit hreach hh
      obtain rfl := howner hms rfl
      exact .hit hreach hh hp

theorem spot_of_addressed {slots : List (Slot μ)}
    (ht : root.target (init ++ [last]) = .ok slots) (hq : root.Addressed init last q) :
    root.Spot slots q := by
  obtain ⟨place, hreach, rfl, -⟩ := target_concat_eq_ok.1 ht
  cases hq with
  | @member name m ms p hr hp =>
    obtain rfl := Except.ok.inj (hreach.symm.trans hr)
    exact ⟨p, _, ⟨m, .field name⟩, List.mem_singleton_self _, hp, rfl, rfl⟩
  | @fanned name is m ms p hne hr hl hp =>
    obtain ⟨place', hr, hw⟩ := reach_append_eq_ok.1 hr
    obtain rfl := Except.ok.inj (hreach.symm.trans hr)
    have hobj : ∀ m ms, place ≠ .value (.object m ms) := by
      rintro m' ms' rfl
      obtain ⟨i, is, rfl⟩ := List.exists_cons_of_ne_nil hne
      obtain ⟨r, hr, -⟩ := Place.walk_cons_eq_ok (k := 0).1 hw
      cases hr
    have hs := (Place.mem_slots_field_iff hobj).2 ⟨m, ⟨is, ms, hw, hl⟩, rfl⟩
    exact ⟨p, _, _, hs, hp, rfl, rfl⟩
  | @item i m items p hr hi hp =>
    obtain rfl := Except.ok.inj (hreach.symm.trans hr)
    refine ⟨p, _, ⟨m, .index i⟩, ?_, hp, rfl, rfl⟩
    show _ ∈ (if i < items.length then [(⟨m, .index i⟩ : Slot μ)] else [])
    rw [if_pos hi]
    exact List.mem_singleton_self _
  | @hit i hs m name v ms p hr hh hp =>
    obtain rfl := Except.ok.inj (hreach.symm.trans hr)
    refine ⟨p, _, ⟨m, .field name⟩, ?_, hp, rfl, rfl⟩
    show _ ∈ (hs[i]?.bind Hit.source).toList
    rw [hh]
    exact List.mem_singleton_self _

/-- **The slots of a path lie exactly at the positions that it addresses.** -/
theorem spot_iff_addressed (hc : root.Consistent) {slots : List (Slot μ)}
    (ht : root.target (init ++ [last]) = .ok slots) :
    root.Spot slots q ↔ root.Addressed init last q :=
  ⟨addressed_of_spot hc ht, spot_of_addressed ht⟩

/-- There is something at an addressed position, unless it is that of a member which the
object at the end of the steps lacks. -/
theorem Addressed.cases (hc : root.Consistent) (h : root.Addressed init last q) :
    (∃ name a p, last = .field name ∧ root.reach init = .ok (.value a) ∧
        root.at? p = some a ∧ q = p ++ [.field name]) ∨
      ∃ x, root.at? q = some x := by
  cases h with
  | member hr hp => exact .inl ⟨_, _, _, rfl, hr, hp, rfl⟩
  | fanned hne hr hl hp =>
    obtain ⟨x, hx⟩ := Option.isSome_iff_exists.1 hl
    refine .inr ⟨x, ?_⟩
    rw [at?_concat, hp]
    exact hx
  | @item i m items p hr hi hp =>
    refine .inr ⟨items[i], ?_⟩
    rw [at?_concat, hp]
    exact List.getElem?_eq_getElem hi
  | @hit i hs m name v ms p hr hh hp =>
    obtain ⟨k, ms, hms, hl⟩ := exists_owner_of_hit hr hh
    obtain ⟨e, -⟩ := hc (contains_of_at? hp) hms rfl rfl
    obtain rfl := (Value.object.inj e).2
    refine .inr ⟨v, ?_⟩
    rw [at?_concat, hp]
    exact hl

/-! ### Nodes after a write -/

/-- The same scalar, or the same container with as many items, or with the same names in
the same order. -/
inductive SameNode : Value μ → Value μ → Prop
  | scalar {v : Value μ} : v.mark? = none → SameNode v v
  | array {m : μ} {xs ys : List (Value μ)} : xs.length = ys.length →
      SameNode (.array m xs) (.array m ys)
  | object {m : μ} {ms ns : List (String × Value μ)} : Assoc.keys ms = Assoc.keys ns →
      SameNode (.object m ms) (.object m ns)

/-- The same object with one name more, at the end. -/
inductive Extended (name : String) : Value μ → Value μ → Prop
  | intro {m : μ} {ms ns : List (String × Value μ)} : ms.lookup name = none →
      Assoc.keys ns = Assoc.keys ms ++ [name] → Extended name (.object m ms) (.object m ns)

/-- A spot of a part is a spot of the tree. -/
theorem Spot.of_at? {slots : List (Slot μ)} {v w : Value μ} {p r : List Step}
    (h : v.at? p = some w) (hr : w.Spot slots r) : v.Spot slots (p ++ r) := by
  induction p generalizing v with
  | nil => exact Option.some.inj h ▸ hr
  | cons s p ih =>
    obtain ⟨x, hx, h⟩ := at?_cons_eq_some.1 h
    exact (ih h).of_child? hx

/-- Every path that can be assigned has a spot. -/
theorem exists_spot {root : Value μ} {steps : List Step} {slots : List (Slot μ)}
    (hd : root.Distinct) (ht : root.target steps = .ok slots) : ∃ q, root.Spot slots q := by
  obtain ⟨-, -, -, -, -, -, hne⟩ := target_eq_ok ht
  obtain ⟨s, hs⟩ := List.exists_mem_of_ne_nil _ hne
  obtain ⟨k, c, hc, hm, -⟩ := (found_of_target ht hs).exists_owner
  obtain ⟨p, hp⟩ := exists_at?_of_contains hd hc
  exact ⟨p ++ [s.step], p, c, s, hs, hp, hm, rfl⟩

section Written

variable [DecidableEq μ] {slots : List (Slot μ)} {new : Value μ}

/-- Without a spot nothing is written. -/
theorem write_eq_self {v : Value μ} (hd : v.Distinct) (h : ∀ r, ¬v.Spot slots r) :
    write slots new v = v := by
  induction v using Value.ind with
  | null | bool | int | double | string => rfl
  | array m items ih =>
    have hnone : ∀ i, ⟨m, .index i⟩ ∉ slots := fun i hs =>
      h _ (spot_singleton.2 ⟨m, rfl, hs⟩)
    have hitems : items.map (write slots new) = items.map id := by
      refine List.map_congr_left fun w hw => ?_
      obtain ⟨i, hi⟩ := List.mem_iff_getElem?.1 hw
      exact ih w hw (distinct_array_iff.1 hd w hw) fun r hr =>
        h _ (hr.of_child? (s := .index i) hi)
    rw [write_array, hitems, List.map_id]
    refine congrArg _ (List.ext_getElem? fun i => ?_)
    rw [getElem?_storeItems, if_neg fun hs => hnone i hs.1]
  | object m ms ih =>
    obtain ⟨hn, hdist⟩ := distinct_object_iff.1 hd
    have hnone : ∀ name, ⟨m, .field name⟩ ∉ slots := fun name hs =>
      h _ (spot_singleton.2 ⟨m, rfl, hs⟩)
    have hmembers : ms.map (fun p => (p.1, write slots new p.2)) = ms.map id := by
      refine List.map_congr_left fun p hp => congrArg (Prod.mk p.1) ?_
      exact ih p hp (hdist p hp) fun r hr =>
        h _ (hr.of_child? (s := .field p.1) (Assoc.lookup_of_mem hn hp))
    rw [write_object, hmembers, List.map_id, storeMembers_of_notMem hnone]

/-- A write keeps every node, or gives an object the one member that is written and that
it lacked. -/
theorem sameNode_write {last : Step} (hstep : ∀ s ∈ slots, s.step = last) (v : Value μ) :
    v.SameNode (write slots new v) ∨
      ∃ name, v.Spot slots [.field name] ∧ v.Extended name (write slots new v) := by
  cases v with
  | array m items =>
    rw [write_array]
    refine .inl (.array ?_)
    rw [length_storeItems, List.length_map]
  | object m ms =>
    have hkeys : Assoc.keys (ms.map fun p => (p.1, write slots new p.2)) = Assoc.keys ms := by
      rw [Assoc.keys, List.map_map]
      rfl
    rw [write_object]
    by_cases hs : ∃ name, ⟨m, .field name⟩ ∈ slots
    · obtain ⟨name, hs⟩ := hs
      have hname : ∀ s ∈ slots, s.step = .field name := by
        intro s hs'
        rw [hstep s hs', ← hstep _ hs]
      rw [storeMembers_of_mem hs hname]
      by_cases hmem : name ∈ Assoc.keys ms
      · refine .inl (.object ?_)
        rw [Assoc.keys_put_of_mem (hkeys ▸ hmem), hkeys]
      · refine .inr ⟨name, spot_singleton.2 ⟨m, rfl, hs⟩, .intro ?_ ?_⟩
        · rw [← Option.not_isSome_iff_eq_none, Assoc.isSome_lookup_iff]
          exact hmem
        · rw [Assoc.put_of_notMem (hkeys ▸ hmem), Assoc.keys, List.map_append]
          exact congrArg (· ++ [name]) hkeys
    · rw [storeMembers_of_notMem (not_exists.1 hs)]
      exact .inl (.object hkeys.symm)
  | _ => exact .inl (.scalar rfl)

/-! ### The main result -/

/-- **The exact effect of an assignment.**  Let every container of a tree be at one
position.  An assignment that succeeds addresses a position at least, and puts the new
value at every position that it addresses.  What is neither above nor below an addressed
position stays as it is.  What is above one is the same node: an array keeps its length, an
object its names in their order; only an object that a last field step is taken in and that
lacks the member gets its name, as the last one. -/
theorem effect_of_assign {root after : Value μ} {init : List Step} {last : Step}
    (hd : root.Distinct) (hu : root.Unshared)
    (h : root.assign (init ++ [last]) new = .ok after) :
    (∃ q, root.Addressed init last q) ∧
      (∀ q, root.Addressed init last q → after.at? q = some new) ∧
      (∀ q, (∀ p, root.Addressed init last p → ¬p <+: q ∧ ¬q <+: p) →
        after.at? q = root.at? q) ∧
      ∀ q a, (∀ p, root.Addressed init last p → ¬p <+: q) → root.at? q = some a →
        ∃ b, after.at? q = some b ∧ (a.SameNode b ∨
          ∃ name, last = .field name ∧ root.reach init = .ok (.value a) ∧
            a.Extended name b) := by
  obtain ⟨slots, ht, rfl⟩ := Except.map_eq_ok.1 h
  have hc := hu.consistent hd
  have hspot : ∀ q, root.Spot slots q ↔ root.Addressed init last q := fun q =>
    spot_iff_addressed hc ht
  simp only [← hspot]
  refine ⟨?_, fun q hq => at?_write_of_spot hc ht hq, fun q hq => ?_, fun q a hq ha => ?_⟩
  · exact exists_spot hd ht
  · rw [at?_write fun p hp => (hq p hp).1]
    cases ha : root.at? q with
    | none => rfl
    | some a =>
      -- no spot is in what stands here, since it would be below this position
      have hnone : ∀ r, ¬a.Spot slots r := fun r hr =>
        (hq _ (hr.of_at? ha)).2 (List.prefix_append q r)
      exact congrArg some (write_eq_self (hd.of_contains (contains_of_at? ha)) hnone)
  · obtain ⟨last', hstep, -⟩ := slots_of_target ht
    refine ⟨write slots new a, ?_, ?_⟩
    · rw [at?_write hq, ha, Option.map_some]
    have hnode : a.SameNode (write slots new a) ∨ _ := sameNode_write hstep a
    rcases hnode with hsame | ⟨name, hs, hext⟩
    · exact .inl hsame
    -- the member was missing, so its object is where the last step is taken
    rcases ((hspot _).1 (hs.of_at? ha)).cases hc with ⟨name', a', p, rfl, hr, hp, e⟩ | ⟨x, hx⟩
    · obtain ⟨rfl, e'⟩ := List.append_inj' e rfl
      obtain ⟨⟨⟩, -⟩ := List.cons.inj e'
      obtain rfl := Option.some.inj (ha.symm.trans hp)
      exact .inr ⟨name, rfl, hr, hext⟩
    · cases hext with
      | intro hl _ =>
        rw [at?_concat, ha] at hx
        exact absurd (hl.symm.trans hx) nofun

/-- An array of an object, of an array with another one, and of an object without
members. -/
def nestedRows : Shared :=
  .array 0 [.object 1 [("a", .int 1)], .array 2 [.object 3 [("a", .int 2)]], .object 4 []]

/-- The same rows with `true` where they had a number. -/
def filledRows : Shared :=
  .array 0 [.object 1 [("a", .bool true)], .array 2 [.object 3 [("a", .bool true)]],
    .object 4 []]

theorem effect_of_assign_nested :
    nestedRows.Distinct ∧ nestedRows.Unshared ∧
      nestedRows.assign ([] ++ [.field "a"]) (.bool true) = .ok filledRows ∧
      nestedRows.Addressed [] (.field "a") [.index 1, .index 0, .field "a"] ∧
      filledRows.at? [.index 1, .index 0, .field "a"] = some (.bool true) := by
  have hint : ∀ n, (int n : Shared).Distinct := fun n => distinct_of_mark?_eq_none rfl
  have hd : nestedRows.Distinct := by
    simp [nestedRows, distinct_object_iff, distinct_array_iff, Assoc.keys, hint]
  have hu : nestedRows.Unshared := unshared_of_nodup (by decide)
  have hok : nestedRows.assign ([] ++ [.field "a"]) (.bool true) = .ok filledRows := rfl
  have hwalk : nestedRows.reach ([] ++ [1, 0].map .index) =
      .ok (.value (.object 3 [("a", .int 2)])) := rfl
  have haddr : nestedRows.Addressed [] (.field "a") ([.index 1, .index 0] ++ [.field "a"]) :=
    .fanned (List.cons_ne_nil _ _) hwalk rfl rfl
  obtain ⟨-, hnew, -⟩ := effect_of_assign hd hu hok
  exact ⟨hd, hu, hok, haddr, hnew _ haddr⟩

end Written

end Value

end JsonPaths
