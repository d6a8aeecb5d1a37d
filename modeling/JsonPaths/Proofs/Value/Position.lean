/-
JsonPaths/Proofs/Value/Position.lean

Positions in a value tree.

A position is a list of steps that are taken one at a time, a field in an object
and an index in an array: nothing is gathered.  `v.at? p` is the part of `v` at
`p`.  In a tree whose objects are maps every part is at a position
(`exists_at?_of_contains`).  `located` marks every container with the position
that it is at, so that its marks are all different; if the marks of a tree are
all different, then one mark is at one position only (`Unshared`).
-/
import JsonPaths.Proofs.Path.Relabel
import JsonPaths.Proofs.Value.Distinct

namespace JsonPaths.Value

variable {μ ν : Type}

/-! ### Parts at positions -/

/-- The item or the member that a step leads to. -/
def child? : Step → Value μ → Option (Value μ)
  | .index i, .array _ items => items[i]?
  | .field name, .object _ members => members.lookup name
  | _, _ => none

/-- The part at a position. -/
def at? : List Step → Value μ → Option (Value μ)
  | [], v => some v
  | s :: p, v => (v.child? s).bind (at? p)

@[simp] theorem at?_nil (v : Value μ) : v.at? [] = some v := rfl

theorem at?_cons (s : Step) (p : List Step) (v : Value μ) :
    v.at? (s :: p) = (v.child? s).bind (at? p) := rfl

theorem at?_cons_eq_some {s : Step} {p : List Step} {v w : Value μ} :
    v.at? (s :: p) = some w ↔ ∃ x, v.child? s = some x ∧ x.at? p = some w :=
  Option.bind_eq_some_iff

theorem at?_append (p q : List Step) (v : Value μ) :
    v.at? (p ++ q) = (v.at? p).bind (at? q) := by
  induction p generalizing v with
  | nil => rfl
  | cons s p ih =>
    rw [List.cons_append, at?_cons, at?_cons, Option.bind_assoc]
    exact congrArg _ (funext ih)

theorem at?_concat (p : List Step) (s : Step) (v : Value μ) :
    v.at? (p ++ [s]) = (v.at? p).bind (child? s) := by
  rw [at?_append]
  exact congrArg _ (funext fun w => Option.bind_fun_some (w.child? s))

/-- Only containers have children. -/
theorem mark?_ne_none_of_child? {s : Step} {v w : Value μ} (h : v.child? s = some w) :
    v.mark? ≠ none := by
  cases v <;> cases s <;> simp_all [child?, mark?]

theorem contains_of_child? {s : Step} {v w : Value μ} (h : v.child? s = some w) :
    v.Contains s.depth w := by
  cases s with
  | index i =>
    cases v with
    | array m items => exact .item (List.mem_of_getElem? h) (.here w)
    | _ => cases h
  | field name =>
    cases v with
    | object m ms => exact .member (Assoc.mem_of_lookup h) (.here w)
    | _ => cases h

theorem contains_of_at? {p : List Step} {v w : Value μ} (h : v.at? p = some w) :
    v.Contains (Path.depth p) w := by
  induction p generalizing v with
  | nil => exact Option.some.inj h ▸ .here v
  | cons s p ih =>
    obtain ⟨x, hx, h⟩ := at?_cons_eq_some.1 h
    rw [Path.depth_cons]
    exact (contains_of_child? hx).trans (ih h)

/-- In a tree whose objects are maps every part is at a position, below as many members
as the position has fields. -/
theorem exists_position_of_contains {v w : Value μ} {k : Nat} (hd : v.Distinct)
    (h : v.Contains k w) : ∃ p, v.at? p = some w ∧ Path.depth p = k := by
  induction h with
  | here v => exact ⟨[], rfl, rfl⟩
  | @item m items x w k hx _ ih =>
    obtain ⟨p, hp, hk⟩ := ih (distinct_array_iff.1 hd x hx)
    obtain ⟨i, hi⟩ := List.mem_iff_getElem?.1 hx
    refine ⟨.index i :: p, ?_, ?_⟩
    · rw [at?_cons, child?, hi, Option.bind_some, hp]
    · rw [Path.depth_cons, Step.depth_index, hk, Nat.zero_add]
  | @member m ms name x w k hx _ ih =>
    obtain ⟨hn, hd⟩ := distinct_object_iff.1 hd
    obtain ⟨p, hp, hk⟩ := ih (hd _ hx)
    refine ⟨.field name :: p, ?_, ?_⟩
    · rw [at?_cons, child?, Assoc.lookup_of_mem hn hx, Option.bind_some, hp]
    · rw [Path.depth_cons, Step.depth_field, hk, Nat.add_comm]

theorem exists_at?_of_contains {v w : Value μ} {k : Nat} (hd : v.Distinct)
    (h : v.Contains k w) : ∃ p, v.at? p = some w := by
  obtain ⟨p, hp, -⟩ := exists_position_of_contains hd h
  exact ⟨p, hp⟩

/-! ### Other marks -/

theorem child?_relabel (f : μ → ν) (s : Step) (v : Value μ) :
    (v.relabel f).child? s = (v.child? s).map (relabel f) := by
  cases v with
  | array m items => cases s <;> simp [relabel_array, child?]
  | object m ms => cases s <;> simp [relabel_object, child?, Assoc.lookup_map]
  | _ => cases s <;> rfl

theorem at?_relabel (f : μ → ν) (p : List Step) (v : Value μ) :
    (v.relabel f).at? p = (v.at? p).map (relabel f) := by
  induction p generalizing v with
  | nil => rfl
  | cons s p ih =>
    rw [at?_cons, at?_cons, child?_relabel, Option.bind_map, Option.map_bind]
    exact congrArg _ (funext ih)

theorem child?_erase (s : Step) (v : Value μ) :
    v.erase.child? s = (v.child? s).map erase := by
  rw [erase_eq_relabel, child?_relabel, funext erase_eq_relabel]

theorem at?_erase (p : List Step) (v : Value μ) : v.erase.at? p = (v.at? p).map erase := by
  rw [erase_eq_relabel, at?_relabel, funext erase_eq_relabel]

theorem distinct_relabel (f : μ → ν) {v : Value μ} : (v.relabel f).Distinct ↔ v.Distinct := by
  induction v using Value.ind with
  | null | bool | int | double | string =>
    exact iff_of_true (distinct_of_mark?_eq_none rfl) (distinct_of_mark?_eq_none rfl)
  | array m items ih =>
    rw [relabel_array, distinct_array_iff, distinct_array_iff, List.forall_mem_map]
    exact forall₂_congr ih
  | object m ms ih =>
    rw [relabel_object, distinct_object_iff, distinct_object_iff, List.forall_mem_map]
    refine and_congr ?_ (forall₂_congr ih)
    rw [Assoc.keys, Assoc.keys, List.map_map]
    rfl

theorem distinct_erase {v : Value μ} : v.erase.Distinct ↔ v.Distinct := by
  rw [erase_eq_relabel, distinct_relabel]

/-! ### Positions as marks -/

mutual

/-- The tree, itself at the position `here`, with the position of every container
beside its mark. -/
def located (here : List Step) : Value μ → Value (List Step × μ)
  | .null => .null
  | .bool b => .bool b
  | .int n => .int n
  | .double x => .double x
  | .string s => .string s
  | .array m items => .array (here, m) (locatedItems here 0 items)
  | .object m members => .object (here, m) (locatedMembers here members)

/-- The items of an array from the item `i` on. -/
def locatedItems (here : List Step) (i : Nat) : List (Value μ) → List (Value (List Step × μ))
  | [] => []
  | v :: vs => v.located (here ++ [.index i]) :: locatedItems here (i + 1) vs

/-- The members of an object. -/
def locatedMembers (here : List Step) :
    List (String × Value μ) → List (String × Value (List Step × μ))
  | [] => []
  | (k, v) :: ms => (k, v.located (here ++ [.field k])) :: locatedMembers here ms

end

theorem locatedItems_eq_mapIdx (here : List Step) (i : Nat) (l : List (Value μ)) :
    locatedItems here i l = l.mapIdx fun j v => v.located (here ++ [.index (i + j)]) := by
  induction l generalizing i with
  | nil => rfl
  | cons v vs ih =>
    rw [locatedItems, ih, List.mapIdx_cons]
    simp only [Nat.add_zero, Nat.add_assoc, Nat.add_comm 1]

theorem locatedMembers_eq_map (here : List Step) (l : List (String × Value μ)) :
    locatedMembers here l = l.map fun p => (p.1, p.2.located (here ++ [.field p.1])) := by
  induction l with
  | nil => rfl
  | cons p ms ih =>
    exact congrArg ((p.1, p.2.located (here ++ [.field p.1])) :: ·) ih

theorem child?_located (here : List Step) (s : Step) (v : Value μ) :
    (v.located here).child? s = (v.child? s).map (located (here ++ [s])) := by
  cases v with
  | array m items => cases s <;> simp [located, child?, locatedItems_eq_mapIdx]
  | object m ms =>
    cases s with
    | index i => rfl
    | field name =>
      show (locatedMembers here ms).lookup name = (ms.lookup name).map _
      rw [locatedMembers_eq_map,
        Assoc.lookup_map_key fun k => located (here ++ [Step.field k])]
  | _ => cases s <;> rfl

theorem at?_located (here p : List Step) (v : Value μ) :
    (v.located here).at? p = (v.at? p).map (located (here ++ p)) := by
  induction p generalizing v here with
  | nil => simp
  | cons s p ih =>
    rw [at?_cons, at?_cons, child?_located, Option.bind_map, Option.map_bind]
    refine congrArg _ (funext fun w => ?_)
    rw [Function.comp_apply, ih, List.append_assoc]
    rfl

theorem mark?_located (here : List Step) (v : Value μ) :
    (v.located here).mark? = v.mark?.map (here, ·) := by
  cases v <;> rfl

theorem relabel_located (f : μ → ν) (here : List Step) (v : Value μ) :
    (v.located here).relabel (Prod.map id f) = (v.relabel f).located here := by
  induction v using Value.ind generalizing here with
  | null | bool | int | double | string => rfl
  | array m items ih =>
    rw [relabel_array, located, relabel_array, located, locatedItems_eq_mapIdx,
      locatedItems_eq_mapIdx]
    refine congrArg _ (List.ext_getElem (by simp) fun i hi hi' => ?_)
    rw [List.getElem_map, List.getElem_mapIdx, List.getElem_mapIdx, List.getElem_map]
    exact ih _ (List.getElem_mem _) _
  | object m ms ih =>
    rw [relabel_object, located, relabel_object, located, locatedMembers_eq_map,
      locatedMembers_eq_map, List.map_map, List.map_map]
    exact congrArg _ (List.map_congr_left fun p hp => congrArg (Prod.mk p.1) (ih p hp _))

theorem relabel_snd_located (here : List Step) (v : Value μ) :
    (v.located here).relabel Prod.snd = v := by
  induction v using Value.ind generalizing here with
  | null | bool | int | double | string => rfl
  | array m items ih =>
    rw [located, relabel_array, locatedItems_eq_mapIdx]
    refine congrArg _ (List.ext_getElem (by simp) fun i hi hi' => ?_)
    rw [List.getElem_map, List.getElem_mapIdx]
    exact ih _ (List.getElem_mem hi') _
  | object m ms ih =>
    rw [located, relabel_object, locatedMembers_eq_map, List.map_map]
    refine congrArg _ ((List.map_congr_left fun p hp => ?_).trans (List.map_id _))
    exact congrArg (Prod.mk p.1) (ih p hp _)

/-! ### Unshared trees -/

/-- Every container is at one position only. -/
def Unshared (v : Value μ) : Prop :=
  ∀ ⦃p q : List Step⦄ ⦃a b : Value μ⦄ ⦃m : μ⦄, v.at? p = some a → v.at? q = some b →
    a.mark? = some m → b.mark? = some m → p = q

/-- In an unshared tree a mark stands for one container. -/
theorem Unshared.consistent {v : Value μ} (hu : v.Unshared) (hd : v.Distinct) :
    v.Consistent := by
  intro j k a b m ha hb hma hmb
  obtain ⟨p, hp, rfl⟩ := exists_position_of_contains hd ha
  obtain ⟨q, hq, rfl⟩ := exists_position_of_contains hd hb
  obtain rfl := hu hp hq hma hmb
  exact ⟨Option.some.inj (hp.symm.trans hq), rfl⟩

theorem mem_marks_of_at? {p : List Step} {v w : Value μ} {m : μ} (h : v.at? p = some w)
    (hm : w.mark? = some m) : m ∈ v.marks :=
  (contains_of_at? h).mem_marks hm

/-- A tree is unshared if its children are, have no mark in common, and have not
the mark of the tree. -/
theorem unshared_of_child? {v : Value μ} (ih : ∀ s x, v.child? s = some x → x.Unshared)
    (hroot : ∀ s x m, v.child? s = some x → v.mark? = some m → m ∉ x.marks)
    (hne : ∀ s t x y m, v.child? s = some x → v.child? t = some y → m ∈ x.marks →
      m ∈ y.marks → s = t) : v.Unshared := by
  intro p q a b m ha hb hma hmb
  -- the two positions start with the same step, or one of them is the root
  cases p with
  | nil =>
    obtain rfl := Option.some.inj ha
    cases q with
    | nil => rfl
    | cons t q =>
      obtain ⟨y, hy, hb⟩ := at?_cons_eq_some.1 hb
      exact absurd (mem_marks_of_at? hb hmb) (hroot t y m hy hma)
  | cons s p =>
    obtain ⟨x, hx, ha⟩ := at?_cons_eq_some.1 ha
    cases q with
    | nil =>
      obtain rfl := Option.some.inj hb
      exact absurd (mem_marks_of_at? ha hma) (hroot s x m hx hmb)
    | cons t q =>
      obtain ⟨y, hy, hb⟩ := at?_cons_eq_some.1 hb
      obtain rfl := hne s t x y m hx hy (mem_marks_of_at? ha hma) (mem_marks_of_at? hb hmb)
      obtain rfl := Option.some.inj (hx.symm.trans hy)
      rw [ih s x hx ha hb hma hmb]

theorem child?_array_eq_some {s : Step} {m : μ} {items : List (Value μ)} {x : Value μ} :
    (array m items).child? s = some x ↔ ∃ i, s = .index i ∧ items[i]? = some x := by
  cases s <;> simp [child?]

theorem child?_object_eq_some {s : Step} {m : μ} {ms : List (String × Value μ)}
    {x : Value μ} :
    (object m ms).child? s = some x ↔ ∃ k, s = .field k ∧ ms.lookup k = some x := by
  cases s <;> simp [child?]

/-- A tree in which no mark is used twice is unshared. -/
theorem unshared_of_nodup {v : Value μ} (h : v.marks.Nodup) : v.Unshared := by
  induction v using Value.ind with
  | null | bool | int | double | string =>
    refine unshared_of_child? ?_ ?_ ?_ <;> rintro (_ | _) <;> intros <;> contradiction
  | array m' items ih =>
    rw [marks_array, List.nodup_cons] at h
    obtain ⟨hm', h⟩ := h
    refine unshared_of_child? (fun s x hx => ?_) (fun s x m hx hm hmx => ?_)
      fun s t x y m hx hy hmx hmy => ?_
    · obtain ⟨i, rfl, hx⟩ := child?_array_eq_some.1 hx
      have hx := List.mem_of_getElem? hx
      exact ih x hx ((List.nodup_flatMap.1 h).1 x hx)
    · obtain ⟨i, rfl, hx⟩ := child?_array_eq_some.1 hx
      obtain rfl := Option.some.inj hm
      exact hm' (List.mem_flatMap.2 ⟨x, List.mem_of_getElem? hx, hmx⟩)
    · obtain ⟨i, rfl, hx⟩ := child?_array_eq_some.1 hx
      obtain ⟨j, rfl, hy⟩ := child?_array_eq_some.1 hy
      rw [eq_of_getElem?_flatMap h hx hy hmx hmy]
  | object m' ms ih =>
    rw [marks_object, List.nodup_cons] at h
    obtain ⟨hm', h⟩ := h
    refine unshared_of_child? (fun s x hx => ?_) (fun s x m hx hm hmx => ?_)
      fun s t x y m hx hy hmx hmy => ?_
    · obtain ⟨k, rfl, hx⟩ := child?_object_eq_some.1 hx
      have hx := Assoc.mem_of_lookup hx
      exact ih _ hx ((List.nodup_flatMap.1 h).1 _ hx)
    · obtain ⟨k, rfl, hx⟩ := child?_object_eq_some.1 hx
      obtain rfl := Option.some.inj hm
      exact hm' (List.mem_flatMap.2 ⟨_, Assoc.mem_of_lookup hx, hmx⟩)
    · obtain ⟨k, rfl, hx⟩ := child?_object_eq_some.1 hx
      obtain ⟨k', rfl, hy⟩ := child?_object_eq_some.1 hy
      have e := eq_of_mem_flatMap h (Assoc.mem_of_lookup hx) (Assoc.mem_of_lookup hy) hmx hmy
      rw [(Prod.mk.inj e).1]

end JsonPaths.Value
