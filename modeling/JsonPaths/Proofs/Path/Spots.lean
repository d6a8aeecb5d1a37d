/-
JsonPaths/Proofs/Path/Spots.lean

The positions that an assignment writes to.

A path addresses positions of a value (`Json.addressed`); a write reaches its
slots at every position where their containers occur, and these are its spots
(`Value.Spot`).  The addressed positions are spots, and there are no others
unless a container is shared (`mem_addressed_of_unshared`).  No spot lies below
another (`spotsApart_of_target`).
-/
import JsonPaths.Proofs.Path.Written
import JsonPaths.Proofs.Value.Put

namespace JsonPaths

variable {μ : Type}

/-! ### Addressed positions -/

/-- The positions that a path addresses in a value: the root if it has no steps,
and otherwise the slots of the path, in the tree that has positions for marks. -/
def Json.addressed (x : Json) (steps : List Step) : List (List Step) :=
  match steps with
  | [] => [[]]
  | steps =>
    match (x.located []).target steps with
    | .ok slots => slots.map fun s => s.owner.1 ++ [s.step]
    | .error _ => []

/-- The positions in a tree at which the slots lie: their containers may occur at
several. -/
def Value.Spot (slots : List (Slot μ)) (v : Value μ) (q : List Step) : Prop :=
  ∃ p c s, s ∈ slots ∧ v.at? p = some c ∧ c.mark? = some s.owner ∧ q = p ++ [s.step]

/-- Whether something can be stored in a value at a step. -/
def Value.Accepts : Step → Value μ → Prop
  | .index i, .array _ items => i < items.length
  | .field _, .object _ _ => True
  | _, _ => False

theorem Slot.Found.exists_owner {root : Value μ} {k : Nat} {s : Slot μ}
    (h : s.Found root k) : ∃ j c, root.Contains j c ∧ c.mark? = some s.owner ∧
      c.Accepts s.step := by
  cases h with
  | member name h => exact ⟨_, _, h, rfl, trivial⟩
  | item h hi => exact ⟨_, _, h, rfl, hi⟩

namespace Value

variable {slots : List (Slot μ)}

/-- The addressed positions are those of the slots in the tree that has positions
beside its marks. -/
theorem addressed_of_target {root : Value μ} {steps : List Step}
    (ht : root.target steps = .ok slots) :
    ∃ l, (root.located []).target steps = .ok l ∧ slots = l.map (Slot.relabel Prod.snd) ∧
      root.erase.addressed steps = l.map fun s => s.owner.1 ++ [s.step] := by
  -- addressing does not look at marks, so they can be forgotten before or after it
  have hsnd : root.target steps
      = ((root.located []).target steps).map (List.map (Slot.relabel Prod.snd)) := by
    rw [← target_relabel, relabel_snd_located]
  have hfst : (root.erase.located []).target steps = ((root.located []).target steps).map
      (List.map (Slot.relabel (Prod.map id fun _ => ()))) := by
    rw [← target_relabel, relabel_located, ← erase_eq_relabel]
  rw [ht] at hsnd
  cases hl : (root.located []).target steps with
  | error o => simp [hl, Except.map] at hsnd
  | ok l =>
    rw [hl] at hsnd hfst
    refine ⟨l, rfl, Except.ok.inj hsnd, ?_⟩
    cases steps with
    | nil => cases ht
    | cons s ss =>
      rw [Json.addressed, hfst]
      · simp only [Except.map, List.map_map]
        rfl
      · rintro ⟨⟩

/-- The container that a slot of a located tree belongs to is at the position that
its mark tells. -/
theorem at?_of_located {root : Value μ} {k : Nat} {s : Slot (List Step × μ)}
    (hd : root.Distinct) (h : s.Found (root.located []) k) :
    ∃ c, root.at? s.owner.1 = some c ∧ c.mark? = some s.owner.2 ∧ c.Accepts s.step := by
  obtain ⟨j, c, hc, hm, ha⟩ := h.exists_owner
  have hloc : (root.located []).Distinct :=
    (distinct_relabel Prod.snd).1 (by rwa [relabel_snd_located])
  obtain ⟨p, hp⟩ := exists_at?_of_contains hloc hc
  rw [at?_located, List.nil_append] at hp
  obtain ⟨c₀, hc₀, rfl⟩ := Option.map_eq_some_iff.1 hp
  rw [mark?_located, Option.map_eq_some_iff] at hm
  obtain ⟨m, hm, e⟩ := hm
  rw [← e]
  refine ⟨c₀, hc₀, hm, ?_⟩
  -- with its position in the mark or without it, a container accepts the same steps
  cases c₀ with
  | array m items =>
    cases hs : s.step with
    | field name => rw [hs] at ha; exact ha
    | index i =>
      rw [hs] at ha
      simpa [located, Accepts, locatedItems_eq_mapIdx] using ha
  | object m ms => cases hs : s.step <;> rw [hs] at ha <;> exact ha
  | _ => cases hm

/-- Addressed positions are spots. -/
theorem spot_of_mem_addressed {root : Value μ} {steps : List Step} (hd : root.Distinct)
    (ht : root.target steps = .ok slots) {q : List Step}
    (hq : q ∈ root.erase.addressed steps) : root.Spot slots q := by
  obtain ⟨l, hl, rfl, ha⟩ := addressed_of_target ht
  rw [ha, List.mem_map] at hq
  obtain ⟨s, hs, rfl⟩ := hq
  obtain ⟨c, hc, hm, -⟩ := at?_of_located hd (found_of_target hl hs)
  exact ⟨_, c, s.relabel Prod.snd, List.mem_map_of_mem hs, hc, hm, rfl⟩

/-- In an unshared tree there are no other spots. -/
theorem mem_addressed_of_unshared {root : Value μ} {steps : List Step} (hd : root.Distinct)
    (hu : root.Unshared) (ht : root.target steps = .ok slots) {q : List Step}
    (hq : root.Spot slots q) : q ∈ root.erase.addressed steps := by
  obtain ⟨l, hl, rfl, ha⟩ := addressed_of_target ht
  obtain ⟨p, c, t, ht, hc, hm, rfl⟩ := hq
  obtain ⟨s, hs, rfl⟩ := List.mem_map.1 ht
  obtain ⟨c', hc', hm', -⟩ := at?_of_located hd (found_of_target hl hs)
  obtain rfl := hu hc hc' hm hm'
  rw [ha]
  exact List.mem_map.2 ⟨s, hs, rfl⟩

/-! ### Spots of children -/

theorem Spot.of_child? {v x : Value μ} {s : Step} {q : List Step} (h : v.child? s = some x)
    (hq : x.Spot slots q) : v.Spot slots (s :: q) := by
  obtain ⟨p, c, t, ht, hc, hm, rfl⟩ := hq
  exact ⟨s :: p, c, t, ht, at?_cons_eq_some.2 ⟨x, h, hc⟩, hm, rfl⟩

theorem spot_singleton {v : Value μ} {s : Step} :
    v.Spot slots [s] ↔ ∃ m, v.mark? = some m ∧ ⟨m, s⟩ ∈ slots := by
  constructor
  · rintro ⟨p, c, t, ht, hc, hm, e⟩
    have e : [] ++ [s] = p ++ [t.step] := e
    obtain ⟨rfl, e⟩ := List.append_inj' e rfl
    obtain rfl := Option.some.inj hc
    obtain rfl := (List.cons.inj e).1
    exact ⟨t.owner, hm, ht⟩
  · rintro ⟨m, hm, hs⟩
    exact ⟨[], v, ⟨m, s⟩, hs, rfl, hm, rfl⟩

theorem Spot.child? {v : Value μ} {s : Step} {q : List Step} (hq : v.Spot slots (s :: q))
    (hne : q ≠ []) : ∃ x, v.child? s = some x ∧ x.Spot slots q := by
  obtain ⟨p, c, t, ht, hc, hm, e⟩ := hq
  cases p with
  | nil => exact absurd (List.cons.inj e).2 hne
  | cons s' p =>
    obtain ⟨rfl, rfl⟩ := List.cons.inj e
    obtain ⟨x, hx, hc⟩ := at?_cons_eq_some.1 hc
    exact ⟨x, hx, p, c, t, ht, hc, hm, rfl⟩

theorem Spot.ne_nil {v : Value μ} {q : List Step} (hq : v.Spot slots q) : q ≠ [] := by
  obtain ⟨p, c, t, -, -, -, rfl⟩ := hq
  simp

/-- No spot lies below another. -/
def SpotsApart (slots : List (Slot μ)) (v : Value μ) : Prop :=
  ∀ ⦃q q' : List Step⦄, v.Spot slots q → v.Spot slots q' → q <+: q' → q = q'

theorem SpotsApart.child? {v x : Value μ} {s : Step} (ha : v.SpotsApart slots)
    (h : v.child? s = some x) : x.SpotsApart slots := by
  intro q q' hq hq' hp
  have e := ha (hq.of_child? h) (hq'.of_child? h) (List.cons_prefix_cons.2 ⟨rfl, hp⟩)
  exact (List.cons.inj e).2

/-! ### The slots of a path -/

/-- A path addresses its slots all by one step, and a slot of an array alone. -/
theorem slots_of_target {root : Value μ} {steps : List Step}
    (ht : root.target steps = .ok slots) : ∃ last, (∀ s ∈ slots, s.step = last) ∧
      ∀ i, last = .index i → ∀ s ∈ slots, ∀ s' ∈ slots, s = s' := by
  obtain ⟨init, step, p, rfl, hp, rfl, hne⟩ := target_eq_ok ht
  cases step with
  | field name =>
    refine ⟨.field name, fun s hs => ?_, fun i hi => by cases hi⟩
    by_cases hobj : ∃ m ms, p = .value (.object m ms)
    · obtain ⟨m, ms, rfl⟩ := hobj
      rw [List.mem_singleton.1 hs]
    · simp only [not_exists] at hobj
      obtain ⟨_, _, -, -, rfl⟩ := Place.mem_slots_field (found_of_reach hp) hobj hs
      rfl
  | index i =>
    obtain ⟨s₀, hs₀⟩ := List.exists_mem_of_ne_nil _ hne
    -- an index takes one item, or one hit, which comes from one container
    have hall : ∀ s ∈ p.slots (.index i), s = s₀ := by
      intro s hs
      rcases Place.mem_slots_index hs with ⟨m, items, rfl, -, rfl⟩ | ⟨hs', m, n, v, rfl, hh, rfl⟩
      · rcases Place.mem_slots_index hs₀ with ⟨m', items', e, -, rfl⟩ | ⟨_, _, _, _, e, -, -⟩
        · cases e
          rfl
        · cases e
      · rcases Place.mem_slots_index hs₀ with ⟨_, _, e, -, -⟩ | ⟨_, m', n', v', e, hh', rfl⟩
        · cases e
        · cases e
          cases hh.symm.trans hh'
          rfl
    refine ⟨s₀.step, fun s hs => hall s hs ▸ rfl, fun _ _ s hs s' hs' => ?_⟩
    rw [hall s hs, hall s' hs']

/-- **Spots are apart.**  They lie below equally many members, so that one could
lie below another only through arrays; then an array would lie inside itself. -/
theorem spotsApart_of_target {root : Value μ} (hc : root.Consistent) {steps : List Step}
    (ht : root.target steps = .ok slots) : root.SpotsApart slots := by
  obtain ⟨last, hlast, hone⟩ := slots_of_target ht
  have hat := hc.slotsAt ht
  -- let the spot of `s'` lie `r` below that of `s`
  rintro _ _ ⟨p, c, s, hs, hp, hm, rfl⟩ ⟨p', c', s', hs', hp', hm', rfl⟩ ⟨r, hr⟩
  have hk := hat s hs _ c (contains_of_at? hp) hm
  have hk' := hat s' hs' _ c' (contains_of_at? hp') hm'
  rw [hlast s hs] at hk hr ⊢
  rw [hlast s' hs'] at hk' hr ⊢
  rcases r.eq_nil_or_concat' with rfl | ⟨r, t, rfl⟩
  · simpa using hr
  rw [← List.append_assoc] at hr
  obtain ⟨rfl, e⟩ := List.append_inj' hr rfl
  obtain rfl := (List.cons.inj e).1
  simp only [Path.depth_append, Path.depth_cons, Path.depth_nil] at hk'
  cases t with
  | field name =>
    simp only [Step.depth_field] at hk hk'
    omega
  | index i =>
    -- there is one slot, so both spots are in one array, and `r` leads back to it
    obtain rfl := hone i rfl s hs s' hs'
    obtain ⟨rfl, -⟩ := hc (contains_of_at? hp) (contains_of_at? hp') hm hm'
    rw [at?_append, at?_append, hp, Option.bind_some, Option.bind_eq_some_iff] at hp'
    obtain ⟨x, hx, hr⟩ := hp'
    obtain ⟨y, hy, hx⟩ := at?_cons_eq_some.1 hx
    obtain rfl := Option.some.inj hx
    cases c with
    | array m items =>
      exact (hc.notMem_items (contains_of_at? hp) (List.mem_of_getElem? hy)
        (contains_of_at? hr)).elim
    | _ => cases hy

end Value

end JsonPaths
