/-
JsonPaths/Proofs/Path/Update.lean

A write as the update of a plain tree.

A write puts the new value at all of its spots (`at?_write_of_spot`).  It is the
update at some of them exactly if the others have the new value anyway
(`erase_write_eq_putAll_iff`).
-/
import JsonPaths.Proofs.Path.Spots

namespace JsonPaths.Value

variable {μ : Type} {slots : List (Slot μ)} {new : Value μ}

/-! ### Positions that cover the spots -/

/-- The positions are spots of a tree, and at its other spots the new value is to be
found anyway. -/
structure Covers (slots : List (Slot μ)) (new : Value μ) (P : List (List Step))
    (v : Value μ) : Prop where
  spot : ∀ q ∈ P, v.Spot slots q
  rest : ∀ q, v.Spot slots q → q ∈ P ∨ v.erase.at? q = some new.erase

theorem Covers.nil_notMem {P : List (List Step)} {v : Value μ} (h : Covers slots new P v) :
    [] ∉ P := by
  intro hp
  exact (h.spot [] hp).ne_nil rfl

/-- Below a step that is no spot the positions cover the child. -/
theorem Covers.child? {P : List (List Step)} {v x : Value μ} {s : Step}
    (h : Covers slots new P v) (hx : v.child? s = some x) (hs : ¬v.Spot slots [s]) :
    Covers slots new (Path.below s P) x := by
  refine ⟨fun q hq => ?_, fun q hq => ?_⟩
  · have hspot := h.spot _ (Path.mem_below.1 hq)
    obtain ⟨y, hy, hq⟩ := hspot.child? (by rintro rfl; exact hs hspot)
    exact Option.some.inj (hx.symm.trans hy) ▸ hq
  · rcases h.rest _ (hq.of_child? hx) with hP | he
    · exact .inl (Path.mem_below.2 hP)
    · rw [at?_cons, child?_erase, hx] at he
      exact .inr he

/-- A child at a spot: it is a position, or it has the new value and no positions
are below it. -/
theorem Covers.putAll_child? {P : List (List Step)} {v x : Value μ} {s : Step}
    (h : Covers slots new P v) (ha : v.SpotsApart slots) (hx : v.child? s = some x)
    (hs : v.Spot slots [s]) : Json.putAll (Path.below s P) new.erase x.erase = new.erase := by
  rcases h.rest _ hs with hP | he
  · exact Json.putAll_of_mem (Path.mem_below.2 hP) _
  · by_cases hnil : [] ∈ Path.below s P
    · exact Json.putAll_of_mem hnil _
    · rw [Path.below_eq_nil fun p hp => ?_, Json.putAll_nil]
      · rw [at?_cons, child?_erase, hx] at he
        exact Option.some.inj he
      · have e := ha hs (h.spot _ hp) ⟨p, rfl⟩
        exact hnil (Path.mem_below.2 (e ▸ hp))

variable [DecidableEq μ]

/-! ### Parts after a write -/

/-- A child that is no spot is written to. -/
theorem child?_write {v : Value μ} {s : Step} (h : ¬v.Spot slots [s]) :
    (write slots new v).child? s = (v.child? s).map (write slots new) := by
  rw [spot_singleton] at h
  cases v with
  | array m items =>
    rw [write_array]
    cases s with
    | field name => rfl
    | index i =>
      rw [child?, child?, getElem?_storeItems, if_neg fun hs => h ⟨m, rfl, hs.1⟩,
        List.getElem?_map]
  | object m ms =>
    rw [write_object]
    cases s with
    | index i => rfl
    | field name =>
      rw [child?, child?, lookup_storeMembers, if_neg fun hs => h ⟨m, rfl, hs⟩,
        Assoc.lookup_map]
  | _ => cases s <;> rfl

/-- A child that is a spot is replaced. -/
theorem child?_write_of_spot {v : Value μ} {s : Step} (h : v.Spot slots [s])
    (ha : v.Accepts s) : (write slots new v).child? s = some new := by
  obtain ⟨m, hm, hs⟩ := spot_singleton.1 h
  cases v with
  | array m' items =>
    obtain rfl := Option.some.inj hm
    cases s with
    | field name => cases ha
    | index i =>
      have hi : i < items.length := ha
      rw [write_array, child?, getElem?_storeItems, List.length_map, if_pos ⟨hs, hi⟩]
  | object m' ms =>
    obtain rfl := Option.some.inj hm
    cases s with
    | index i => cases ha
    | field name => rw [write_object, child?, lookup_storeMembers, if_pos hs]
  | _ => cases hm

theorem accepts_of_child?_write {v x : Value μ} {s : Step}
    (h : (write slots new v).child? s = some x) (hs : v.Spot slots [s]) : v.Accepts s := by
  obtain ⟨m, hm, -⟩ := spot_singleton.1 hs
  cases v with
  | array m' items =>
    rw [write_array] at h
    cases s with
    | field name => cases h
    | index i =>
      rw [child?] at h
      have := (List.getElem?_eq_some_iff.1 h).1
      rwa [length_storeItems, List.length_map] at this
  | object m' ms =>
    cases s with
    | index i => rw [write_object] at h; cases h
    | field name => trivial
  | _ => cases hm

/-- A part that is at or below no spot is written to. -/
theorem at?_write {p : List Step} {v : Value μ} (h : ∀ q, v.Spot slots q → ¬q <+: p) :
    (write slots new v).at? p = (v.at? p).map (write slots new) := by
  induction p generalizing v with
  | nil => rfl
  | cons s p ih =>
    rw [at?_cons, at?_cons, child?_write fun hs => h [s] hs ⟨p, rfl⟩, Option.bind_map]
    cases hx : v.child? s with
    | none => rfl
    | some x =>
      exact ih fun q hq hqp => h (s :: q) (hq.of_child? hx) (List.cons_prefix_cons.2 ⟨rfl, hqp⟩)

/-- **After an assignment the new value is at every spot.** -/
theorem at?_write_of_spot {root : Value μ} (hc : root.Consistent) {steps : List Step}
    (ht : root.target steps = .ok slots) {q : List Step} (hq : root.Spot slots q) :
    (write slots new root).at? q = some new := by
  have hapart := spotsApart_of_target hc ht
  have hq' := hq
  obtain ⟨p, c, s, hs, hp, hm, rfl⟩ := hq'
  -- a spot at or above the container would lie above the spot in it
  have habove : ∀ q, root.Spot slots q → ¬q <+: p := by
    intro q' hspot hpre
    have e := hapart hspot hq (hpre.trans (List.prefix_append p [s.step]))
    have hlen := hpre.length_le
    rw [e, List.length_append, List.length_singleton] at hlen
    omega
  rw [at?_concat, at?_write habove, hp, Option.map_some, Option.bind_some]
  refine child?_write_of_spot (spot_singleton.2 ⟨_, hm, hs⟩) ?_
  obtain ⟨j, c', hc', hm', ha⟩ := (found_of_target ht hs).exists_owner
  obtain ⟨rfl, -⟩ := hc (contains_of_at? hp) hc' hm hm'
  exact ha

/-- Every part after a write is a part before, written to, or a part of what a spot
has got. -/
theorem at?_write_eq_some {q : List Step} {v a : Value μ}
    (h : (write slots new v).at? q = some a) :
    (∃ b, v.at? q = some b ∧ a = write slots new b) ∨
      ∃ p c s r, s ∈ slots ∧ v.at? p = some c ∧ c.mark? = some s.owner ∧
        q = p ++ s.step :: r ∧ new.at? r = some a := by
  induction q generalizing v with
  | nil => exact .inl ⟨v, rfl, (Option.some.inj h).symm⟩
  | cons t q ih =>
    obtain ⟨y, hy, ha⟩ := at?_cons_eq_some.1 h
    by_cases hs : v.Spot slots [t]
    · obtain ⟨m, hm, hslot⟩ := spot_singleton.1 hs
      have hacc : v.Accepts t := accepts_of_child?_write hy hs
      obtain rfl := Option.some.inj (hy.symm.trans (child?_write_of_spot hs hacc))
      exact .inr ⟨[], v, ⟨m, t⟩, q, hslot, rfl, hm, rfl, ha⟩
    · rw [child?_write hs] at hy
      obtain ⟨x, hx, rfl⟩ := Option.map_eq_some_iff.1 hy
      rcases ih ha with ⟨b, hb, rfl⟩ | ⟨p, c, s, r, hs, hp, hm, rfl, hr⟩
      · exact .inl ⟨b, at?_cons_eq_some.2 ⟨x, hx, hb⟩, rfl⟩
      · exact .inr ⟨t :: p, c, s, r, hs, at?_cons_eq_some.2 ⟨x, hx, hp⟩, hm, rfl, hr⟩

omit [DecidableEq μ] in
/-- A value that is no container has no parts but itself. -/
theorem eq_of_at?_of_mark?_eq_none {v a : Value μ} {p : List Step} (hm : v.mark? = none)
    (h : v.at? p = some a) : a = v := by
  cases p with
  | nil => exact (Option.some.inj h).symm
  | cons s p =>
    obtain ⟨x, hx, -⟩ := at?_cons_eq_some.1 h
    exact absurd hm (mark?_ne_none_of_child? hx)

/-- **A tree stays unshared** if it is written to at one slot only, or if what is
written is no container. -/
theorem Unshared.write {v : Value μ} (hv : v.Unshared) (hn : new.Unshared)
    (hfresh : ∀ m ∈ v.marks, m ∉ new.marks)
    (h : new.mark? = none ∨ ∀ s ∈ slots, ∀ s' ∈ slots, s = s') :
    (write slots new v).Unshared := by
  intro q q' a a' m ha ha' hm hm'
  -- each of the parts is a part of the tree before or of what was written
  rcases at?_write_eq_some ha with ⟨b, hb, rfl⟩ | ⟨p, c, s, r, hs, hp, hc, rfl, hr⟩
  · rw [mark?_write] at hm
    rcases at?_write_eq_some ha' with ⟨b', hb', rfl⟩ | ⟨_, _, _, _, _, _, _, -, hr'⟩
    · rw [mark?_write] at hm'
      exact hv hb hb' hm hm'
    · exact absurd (mem_marks_of_at? hr' hm') (hfresh m (mem_marks_of_at? hb hm))
  · rcases at?_write_eq_some ha' with ⟨b', hb', rfl⟩ | ⟨p', c', s', r', hs', hp', hc', rfl, hr'⟩
    · rw [mark?_write] at hm'
      exact absurd (mem_marks_of_at? hr hm) (hfresh m (mem_marks_of_at? hb' hm'))
    · rcases h with hnone | hone
      · rw [eq_of_at?_of_mark?_eq_none hnone hr, hnone] at hm
        cases hm
      · obtain rfl := hone s hs s' hs'
        rw [hv hp hp' hc hc', hn hr hr' hm hm']

/-! ### The plain update -/

/-- Storing under the one name that slots of an object have. -/
theorem storeMembers_of_mem {m : μ} {name : String} {ms : List (String × Value μ)}
    (hs : ⟨m, .field name⟩ ∈ slots) (hstep : ∀ s ∈ slots, s.step = .field name) :
    storeMembers slots new m ms = Assoc.put name new ms := by
  rw [storeMembers_eq_putEach]
  refine Assoc.putEach_eq_put (Slot.mem_names.2 hs) fun n hn => ?_
  exact Step.field.inj (hstep _ (Slot.mem_names.1 hn))

theorem storeMembers_of_notMem {m : μ} {ms : List (String × Value μ)}
    (h : ∀ name, ⟨m, .field name⟩ ∉ slots) : storeMembers slots new m ms = ms := by
  rw [storeMembers_eq_putEach]
  have hnil : Slot.names slots m = [] :=
    List.eq_nil_iff_forall_not_mem.2 fun n hn => h n (Slot.mem_names.1 hn)
  rw [hnil, Assoc.putEach_nil]

/-- The items of an array after a write, from what it does to items at no spot. -/
theorem Covers.erase_storeItems {m : μ} {items : List (Value μ)} {P : List (List Step)}
    (hP : Covers slots new P (array m items)) (ha : (array m items).SpotsApart slots)
    (hitem : ∀ i x, items[i]? = some x → ¬(array m items).Spot slots [.index i] →
      (write slots new x).erase
        = Json.putAll (Path.below (.index i) P) new.erase x.erase) :
    (storeItems slots new m (items.map (write slots new))).map erase
      = (items.map erase).mapIdx fun i x =>
        Json.putAll (Path.below (.index i) P) new.erase x := by
  refine List.ext_getElem? fun i => ?_
  rw [List.getElem?_map, getElem?_storeItems, List.length_map, List.getElem?_map,
    List.getElem?_mapIdx, List.getElem?_map]
  cases hx : items[i]? with
  | none => simp [List.getElem?_eq_none_iff.1 hx]
  | some x =>
    -- an item at a spot is the new value, which the plain update puts or finds there
    by_cases hs : (array m items).Spot slots [.index i]
    · obtain ⟨m', hm, hslot⟩ := spot_singleton.1 hs
      obtain rfl := Option.some.inj hm
      rw [if_pos ⟨hslot, (List.getElem?_eq_some_iff.1 hx).1⟩]
      exact congrArg some (hP.putAll_child? (s := .index i) ha hx hs).symm
    · rw [if_neg fun h => hs (spot_singleton.2 ⟨m, rfl, h.1⟩)]
      exact congrArg some (hitem i x hx hs)

omit [DecidableEq μ] in
/-- Storing at the names among the positions is storing at the one name that is a
spot. -/
theorem Covers.putEach_names {m : μ} {ms : List (String × Value μ)} {P : List (List Step)}
    (hP : Covers slots new P (object m ms)) (ha : (object m ms).SpotsApart slots)
    {name : String} (hs : (object m ms).Spot slots [.field name])
    (hunique : ∀ n, (object m ms).Spot slots [.field n] → n = name) :
    Assoc.putEach (Path.names P) new.erase (ms.map fun p =>
        (p.1, Json.putAll (Path.below (.field p.1) P) new.erase p.2.erase))
      = Assoc.put name new.erase (ms.map fun p =>
        (p.1, Json.putAll (Path.below (.field p.1) P) new.erase p.2.erase)) := by
  have hnames : ∀ n ∈ Path.names P, n = name := by
    intro n hn
    exact hunique n (hP.spot _ (Path.mem_names.1 hn))
  by_cases hmem : [.field name] ∈ P
  · exact Assoc.putEach_eq_put (Path.mem_names.2 hmem) hnames
  · -- the spot is no position, so the member has the new value before the write
    have he := (hP.rest _ hs).resolve_left hmem
    rw [at?_cons, child?_erase] at he
    cases hx : ms.lookup name with
    | none => simp [Value.child?, hx] at he
    | some x =>
      have hnil : Path.names P = [] := by
        apply List.eq_nil_iff_forall_not_mem.2
        intro n hn
        exact hmem (hnames n hn ▸ Path.mem_names.1 hn)
      rw [hnil, Assoc.putEach_nil]
      symm
      apply Assoc.put_eq_self
      rw [Assoc.lookup_map_key fun k (x : Value μ) =>
        Json.putAll (Path.below (.field k) P) new.erase x.erase, hx]
      exact congrArg some (hP.putAll_child? (s := .field name) ha hx hs)

/-- The members of an object after a write, from what it does to members at no
spot.  The slots have one name, so that at most one member is stored. -/
theorem Covers.erase_storeMembers {m : μ} {ms : List (String × Value μ)}
    {P : List (List Step)} (hP : Covers slots new P (object m ms))
    (ha : (object m ms).SpotsApart slots) (hn : (Assoc.keys ms).Nodup) {last : Step}
    (hstep : ∀ s ∈ slots, s.step = last)
    (hmember : ∀ p ∈ ms, ¬(object m ms).Spot slots [.field p.1] →
      (write slots new p.2).erase
        = Json.putAll (Path.below (.field p.1) P) new.erase p.2.erase) :
    (storeMembers slots new m (ms.map fun p => (p.1, write slots new p.2))).map
        (fun p => (p.1, p.2.erase))
      = Assoc.putEach (Path.names P) new.erase (ms.map fun p =>
        (p.1, Json.putAll (Path.below (.field p.1) P) new.erase p.2.erase)) := by
  by_cases hspot : ∃ name, (object m ms).Spot slots [.field name]
  · obtain ⟨name, hs⟩ := hspot
    obtain ⟨m', hm, hslot⟩ := spot_singleton.1 hs
    obtain rfl := Option.some.inj hm
    have hname : ∀ s ∈ slots, s.step = .field name := by
      intro s hs
      rw [hstep s hs, ← hstep _ hslot]
    have hunique : ∀ n, (object m ms).Spot slots [.field n] → n = name := by
      intro n hn
      obtain ⟨m', -, hslot⟩ := spot_singleton.1 hn
      exact Step.field.inj (hname _ hslot)
    rw [storeMembers_of_mem hslot hname, Assoc.map_put, List.map_map,
      hP.putEach_names ha hs hunique]
    refine Assoc.put_map_congr (f := fun _ x => (write slots new x).erase)
      (g := fun k x => Json.putAll (Path.below (.field k) P) new.erase x.erase) new.erase hn
      fun p hp hne => hmember p hp fun hs => hne (hunique _ hs)
  · -- no member is a spot: nothing is stored in this object, and no name is updated
    simp only [not_exists] at hspot
    have hnil : Path.names P = [] := by
      apply List.eq_nil_iff_forall_not_mem.2
      intro n hn
      exact hspot n (hP.spot _ (Path.mem_names.1 hn))
    have hstore : ∀ name, ⟨m, .field name⟩ ∉ slots := by
      intro n hn
      exact hspot n (spot_singleton.2 ⟨m, rfl, hn⟩)
    rw [storeMembers_of_notMem hstore, hnil, Assoc.putEach_nil, List.map_map]
    exact List.map_congr_left fun p hp => congrArg (Prod.mk p.1) (hmember p hp (hspot _))

/-- **A write is the update of a plain tree** at positions that cover its spots. -/
theorem erase_write_eq_putAll {last : Step} (hstep : ∀ s ∈ slots, s.step = last)
    {v : Value μ} (hd : v.Distinct) (ha : v.SpotsApart slots) {P : List (List Step)}
    (hP : Covers slots new P v) :
    (write slots new v).erase = Json.putAll P new.erase v.erase := by
  induction v using Value.ind generalizing P with
  | null | bool | int | double | string => exact (if_neg hP.nil_notMem).symm
  | array m items ih =>
    rw [write_array, erase_array, erase_array, Json.putAll_array hP.nil_notMem]
    refine congrArg _ (hP.erase_storeItems ha fun i x hx hs => ?_)
    have hmem := List.mem_of_getElem? hx
    have hx : (array m items).child? (.index i) = some x := hx
    exact ih x hmem (distinct_array_iff.1 hd x hmem) (ha.child? hx) (hP.child? hx hs)
  | object m ms ih =>
    obtain ⟨hn, hdist⟩ := distinct_object_iff.1 hd
    rw [write_object, erase_object, erase_object, Json.putAll_object hP.nil_notMem,
      List.map_map]
    refine congrArg _ (hP.erase_storeMembers ha hn hstep fun p hp hs => ?_)
    have hx : (object m ms).child? (.field p.1) = some p.2 := Assoc.lookup_of_mem hn hp
    exact ih p hp (hdist p hp) (ha.child? hx) (hP.child? hx hs)

variable (new) in
/-- **When a write is a plain update.**  It is the update at the addressed positions
exactly if its other spots had the new value before. -/
theorem erase_write_eq_putAll_iff {root : Value μ} (hc : root.Consistent)
    (hd : root.Distinct) {steps : List Step} (ht : root.target steps = .ok slots) :
    (write slots new root).erase
        = Json.putAll (root.erase.addressed steps) new.erase root.erase ↔
      ∀ q, root.Spot slots q →
        q ∈ root.erase.addressed steps ∨ root.erase.at? q = some new.erase := by
  have hapart := spotsApart_of_target hc ht
  have hspot : ∀ q ∈ root.erase.addressed steps, root.Spot slots q := by
    intro q hq
    exact spot_of_mem_addressed hd ht hq
  constructor
  · intro h q hq
    by_cases hmem : q ∈ root.erase.addressed steps
    · exact .inl hmem
    · -- the update leaves a spot that is not addressed as it was
      refine .inr ?_
      have hafter : (write slots new root).erase.at? q = some new.erase := by
        rw [at?_erase, at?_write_of_spot hc ht hq, Option.map_some]
      rw [← hafter, h, Json.at?_putAll_of_apart fun p hp => ⟨fun hpq => ?_, fun hqp => ?_⟩]
      · exact hmem (hapart (hspot p hp) hq hpq ▸ hp)
      · exact hmem (hapart hq (hspot p hp) hqp ▸ hp)
  · intro h
    obtain ⟨last, hstep, -⟩ := slots_of_target ht
    exact erase_write_eq_putAll hstep hd hapart ⟨hspot, h⟩

/-- **What an assignment makes of an unshared tree** is the plain update at the addressed
positions, whatever the marks are. -/
theorem erase_assign {root : Value μ} (hd : root.Distinct) (hu : root.Unshared)
    (steps : List Step) (new : Value μ) :
    (root.assign steps new).map erase = (root.erase.target steps).map fun _ =>
      Json.putAll (root.erase.addressed steps) new.erase root.erase := by
  have htarget : root.erase.target steps
      = (root.target steps).map (List.map (Slot.relabel fun _ => ())) := by
    rw [erase_eq_relabel, target_relabel]
  rw [htarget, assign]
  cases ht : root.target steps with
  | error o => rfl
  | ok slots =>
    refine congrArg Except.ok ?_
    refine (erase_write_eq_putAll_iff new (hu.consistent hd) hd ht).2 fun q hq => ?_
    exact .inl (mem_addressed_of_unshared hd hu ht hq)

end JsonPaths.Value
