/-
JsonPaths/Proofs/Value/Put.lean

Putting one value at several positions of a JSON value.

This is the update of a plain tree: `putAll P v x` is `x` with `v` at all the
positions of `P` at once.  A position that is apart from all of them has what it
had (`at?_putAll_of_apart`).
-/
import JsonPaths.Proofs.Value.Position

namespace JsonPaths

/-! ### Sets of positions -/

/-- What comes after the step in the positions that begin with it. -/
def Path.below (s : Step) (P : List (List Step)) : List (List Step) :=
  P.filterMap fun
    | [] => none
    | t :: p => if t = s then some p else none

theorem Path.mem_below {s : Step} {p : List Step} {P : List (List Step)} :
    p ∈ Path.below s P ↔ s :: p ∈ P := by
  rw [Path.below, List.mem_filterMap]
  constructor
  · rintro ⟨_ | ⟨t, q⟩, hq, h⟩
    · cases h
    · dsimp only at h
      split at h
      · next e => exact e ▸ Option.some.inj h ▸ hq
      · cases h
  · exact fun h => ⟨s :: p, h, if_pos rfl⟩

theorem Path.below_eq_nil {s : Step} {P : List (List Step)} (h : ∀ p, s :: p ∉ P) :
    Path.below s P = [] :=
  List.eq_nil_iff_forall_not_mem.2 fun p hp => h p (Path.mem_below.1 hp)

/-- The names that are positions by themselves. -/
def Path.names (P : List (List Step)) : List String :=
  P.filterMap fun
    | [.field name] => some name
    | _ => none

theorem Path.mem_names {P : List (List Step)} {name : String} :
    name ∈ Path.names P ↔ [.field name] ∈ P := by
  rw [Path.names, List.mem_filterMap]
  constructor
  · rintro ⟨p, hp, h⟩
    split at h
    · exact Option.some.inj h ▸ hp
    · cases h
  · exact fun h => ⟨_, h, rfl⟩

namespace Json

/-! ### Putting -/

mutual

/-- The value with `v` at all positions of `P`.  What is there is replaced, and a
member that an object lacks is added at its end. -/
def putAll (P : List (List Step)) (v : Json) : Json → Json
  | .array _ items => if [] ∈ P then v else .array () (putItems P v 0 items)
  | .object _ members =>
    if [] ∈ P then v else .object () (Assoc.putEach (Path.names P) v (putMembers P v members))
  | x => if [] ∈ P then v else x

/-- The items of an array from the item `i` on, with `v` at the positions. -/
def putItems (P : List (List Step)) (v : Json) (i : Nat) : List Json → List Json
  | [] => []
  | x :: xs => putAll (Path.below (.index i) P) v x :: putItems P v (i + 1) xs

/-- The members of an object with `v` at the positions. -/
def putMembers (P : List (List Step)) (v : Json) :
    List (String × Json) → List (String × Json)
  | [] => []
  | (k, x) :: ms => (k, putAll (Path.below (.field k) P) v x) :: putMembers P v ms

end

variable {P : List (List Step)} {v : Json}

theorem putItems_eq_mapIdx (i : Nat) (l : List Json) :
    putItems P v i l = l.mapIdx fun j x => putAll (Path.below (.index (i + j)) P) v x := by
  induction l generalizing i with
  | nil => rfl
  | cons x xs ih =>
    rw [putItems, ih, List.mapIdx_cons]
    simp only [Nat.add_zero, Nat.add_assoc, Nat.add_comm 1]

theorem putMembers_eq_map (l : List (String × Json)) :
    putMembers P v l = l.map fun p => (p.1, putAll (Path.below (.field p.1) P) v p.2) := by
  induction l with
  | nil => rfl
  | cons p ms ih => exact congrArg ((p.1, putAll (Path.below (.field p.1) P) v p.2) :: ·) ih

theorem putAll_of_mem (h : [] ∈ P) (x : Json) : putAll P v x = v := by
  cases x <;> exact if_pos h

theorem putAll_array (h : [] ∉ P) (m : Unit) (items : List Json) :
    putAll P v (.array m items)
      = .array () (items.mapIdx fun i x => putAll (Path.below (.index i) P) v x) := by
  rw [putAll, if_neg h, putItems_eq_mapIdx]
  simp only [Nat.zero_add]

theorem putAll_object (h : [] ∉ P) (m : Unit) (ms : List (String × Json)) :
    putAll P v (.object m ms) = .object () (Assoc.putEach (Path.names P) v
      (ms.map fun p => (p.1, putAll (Path.below (.field p.1) P) v p.2))) := by
  rw [putAll, if_neg h, putMembers_eq_map]

/-- Without a position nothing changes. -/
@[simp] theorem putAll_nil (x : Json) : putAll [] v x = x := by
  have hbelow : ∀ s, Path.below s [] = [] := fun s => rfl
  induction x using Value.ind with
  | null | bool | int | double | string => rfl
  | array m items ih =>
    rw [putAll_array List.not_mem_nil]
    refine congrArg _ (List.ext_getElem (by simp) fun i hi hi' => ?_)
    rw [List.getElem_mapIdx, hbelow]
    exact ih _ (List.getElem_mem hi')
  | object m ms ih =>
    rw [putAll_object List.not_mem_nil]
    refine congrArg _ ((List.map_congr_left fun p hp => ?_).trans (List.map_id _))
    rw [hbelow, ih p hp]
    rfl

/-! ### Positions apart -/

theorem child?_putAll {s : Step} (h : [] ∉ P) (hs : [s] ∉ P) (x : Json) :
    (putAll P v x).child? s = (x.child? s).map (putAll (Path.below s P) v) := by
  cases x with
  | array m items =>
    rw [putAll_array h]
    cases s <;> simp [Value.child?]
  | object m ms =>
    rw [putAll_object h]
    cases s with
    | index i => rfl
    | field name =>
      show (Assoc.putEach (Path.names P) v _).lookup name = (ms.lookup name).map _
      rw [Assoc.lookup_putEach, if_neg fun hn => hs (Path.mem_names.1 hn),
        Assoc.lookup_map_key fun k => putAll (Path.below (.field k) P) v]
  | _ => simp only [putAll, if_neg h]; cases s <;> rfl

/-- **A position that is neither above nor below a position of `P` has what it
had.** -/
theorem at?_putAll_of_apart {q : List Step} (h : ∀ p ∈ P, ¬p <+: q ∧ ¬q <+: p) (x : Json) :
    (putAll P v x).at? q = x.at? q := by
  induction q generalizing P x with
  | nil =>
    have hP : P = [] := by
      apply List.eq_nil_iff_forall_not_mem.2
      intro p hp
      exact (h p hp).2 List.nil_prefix
    rw [hP, putAll_nil]
  | cons s q ih =>
    have hnil : [] ∉ P := fun hp => (h [] hp).1 List.nil_prefix
    have hs : [s] ∉ P := fun hp => (h [s] hp).1 ⟨q, rfl⟩
    rw [Value.at?_cons, Value.at?_cons, child?_putAll hnil hs, Option.bind_map]
    refine congrArg _ (funext fun w => ih (fun p hp => ?_) w)
    -- positions below the step are apart from the rest as these were
    obtain ⟨h1, h2⟩ := h _ (Path.mem_below.1 hp)
    exact ⟨fun hpq => h1 (List.cons_prefix_cons.2 ⟨rfl, hpq⟩),
      fun hpq => h2 (List.cons_prefix_cons.2 ⟨rfl, hpq⟩)⟩

end Json

end JsonPaths
