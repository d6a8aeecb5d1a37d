/-
JsonPaths/Proofs/Graph/Fill.lean

Filling a container that is not yet in use anywhere else.

A container that is stored first and filled afterwards comes to the same as one that is
filled first (`write_write_new`), so that what becomes of it can be told without the tree
around it: an array of nulls gets its items (`fill_array`), an object of nulls its members
(`fill_object`).
-/
import JsonPaths.Proofs.Path.ReadBack
import JsonPaths.Proofs.Path.Update

namespace JsonPaths.Value

variable {m : Nat} {t : Step} {s : Slot Nat} {c x T : Shared}

/-! ### Writing to a new container -/

theorem map_storeItems (f : Shared → Shared) (slots : List (Slot Nat)) (new : Shared) (a : Nat)
    (items : List Shared) :
    (storeItems slots new a items).map f = storeItems slots (f new) a (items.map f) := by
  induction slots generalizing items with
  | nil => rfl
  | cons s ss ih =>
    rw [storeItems_cons, storeItems_cons, ih]
    congr 1
    split
    · split
      · exact List.map_set
      · rfl
    · rfl

theorem map_storeMembers (f : Shared → Shared) (slots : List (Slot Nat)) (new : Shared)
    (a : Nat) (ms : List (String × Shared)) :
    (storeMembers slots new a ms).map (fun p => (p.1, f p.2))
      = storeMembers slots (f new) a (ms.map fun p => (p.1, f p.2)) := by
  rw [storeMembers_eq_putEach, storeMembers_eq_putEach, Assoc.map_putEach]

theorem storeItems_of_ne {slots : List (Slot Nat)} {a : Nat} (h : ∀ s ∈ slots, s.owner ≠ a)
    (items : List Shared) : storeItems slots x a items = items :=
  storeItems_of_quiet (fun _ hi => h _ hi rfl) items

theorem storeMembers_of_ne {slots : List (Slot Nat)} {a : Nat} (h : ∀ s ∈ slots, s.owner ≠ a)
    (ms : List (String × Shared)) : storeMembers slots x a ms = ms :=
  storeMembers_of_notMem fun _ hn => h _ hn rfl

/-- A tree without the containers of slots is left alone by a write to them. -/
theorem write_of_disjoint {slots : List (Slot Nat)} (h : ∀ s ∈ slots, s.owner ∉ T.marks) :
    write slots x T = T := by
  induction T using Value.ind with
  | null | bool | int | double | string => rfl
  | array a items ih =>
    have hitems : items.map (write slots x) = items := by
      refine (List.map_congr_left fun v hv => ih v hv fun s hs hmv => ?_).trans (List.map_id _)
      exact h s hs (marks_subset_of_mem_items hv hmv)
    rw [write_array, hitems, storeItems_of_ne fun s hs e => h s hs ?_]
    rw [e, marks_array]
    exact List.mem_cons_self
  | object a ms ih =>
    have hms : ms.map (fun p => (p.1, write slots x p.2)) = ms := by
      refine (List.map_congr_left fun p hp => ?_).trans (List.map_id _)
      rw [ih p hp fun s hs hmp => h s hs (marks_subset_of_mem_members hp hmp)]
      rfl
    rw [write_object, hms, storeMembers_of_ne fun s hs e => h s hs ?_]
    rw [e, marks_object]
    exact List.mem_cons_self

theorem write_of_notMem_marks (h : m ∉ T.marks) : write [⟨m, t⟩] x T = T :=
  write_of_disjoint (List.forall_mem_singleton.2 h)

/-- A write into a new container can be done before the container is stored. -/
theorem write_write_new (h : m ∉ T.marks) :
    write [⟨m, t⟩] x (write [s] c T) = write [s] (write [⟨m, t⟩] x c) T := by
  induction T using Value.ind with
  | null | bool | int | double | string => rfl
  | array a items ih =>
    rw [marks_array, List.mem_cons, not_or] at h
    obtain ⟨hm, h⟩ := h
    have hitems : (items.map (write [s] c)).map (write [⟨m, t⟩] x)
        = items.map (write [s] (write [⟨m, t⟩] x c)) := by
      rw [List.map_map]
      refine List.map_congr_left fun v hv => ih v hv fun hmv => ?_
      exact h (List.mem_flatMap.2 ⟨v, hv, hmv⟩)
    rw [write_array, write_array, write_array, map_storeItems,
      storeItems_of_ne (List.forall_mem_singleton.2 hm), hitems]
  | object a ms ih =>
    rw [marks_object, List.mem_cons, not_or] at h
    obtain ⟨hm, h⟩ := h
    have hms : (ms.map fun p => (p.1, write [s] c p.2)).map
          (fun p => (p.1, write [⟨m, t⟩] x p.2))
        = ms.map fun p => (p.1, write [s] (write [⟨m, t⟩] x c) p.2) := by
      rw [List.map_map]
      refine List.map_congr_left fun p hp => congrArg (Prod.mk p.1) (ih p hp fun hmp => ?_)
      exact h (List.mem_flatMap.2 ⟨p, hp, hmp⟩)
    rw [write_object, write_object, write_object, map_storeMembers,
      storeMembers_of_ne (List.forall_mem_singleton.2 hm), hms]

/-! ### Filling a new container -/

/-- The container after values have been stored in it one after the other. -/
def fill (m : Nat) (c : Shared) (parts : List (Step × Shared)) : Shared :=
  parts.foldl (fun c p => write [⟨m, p.1⟩] p.2 c) c

theorem fill_cons (m : Nat) (c : Shared) (p : Step × Shared) (ps : List (Step × Shared)) :
    fill m c (p :: ps) = fill m (write [⟨m, p.1⟩] p.2 c) ps := rfl

theorem write_index_new {k : Nat} {items : List Shared} (h : ∀ v ∈ items, m ∉ v.marks) :
    write [⟨m, .index k⟩] x (.array m items) = .array m (items.set k x) := by
  have hitems : items.map (write [⟨m, .index k⟩] x) = items :=
    (List.map_congr_left fun v hv => write_of_notMem_marks (h v hv)).trans (List.map_id _)
  rw [write_array, hitems]
  simp [storeItems]

theorem write_field_new {name : String} {ms : List (String × Shared)}
    (h : ∀ p ∈ ms, m ∉ p.2.marks) :
    write [⟨m, .field name⟩] x (.object m ms) = .object m (Assoc.put name x ms) := by
  have hms : ms.map (fun p => (p.1, write [⟨m, .field name⟩] x p.2)) = ms := by
    refine (List.map_congr_left fun p hp => ?_).trans (List.map_id _)
    rw [write_of_notMem_marks (h p hp)]
    rfl
  rw [write_object, hms]
  simp [storeMembers]

/-- An array of nulls that is filled from place to place has the items in order. -/
theorem fill_array {d new : List Shared} (hd : ∀ v ∈ d, m ∉ v.marks)
    (hn : ∀ v ∈ new, m ∉ v.marks) :
    fill m (.array m (d ++ new.map fun _ => .null))
        (((List.range' d.length new.length).map Step.index).zip new)
      = .array m (d ++ new) := by
  induction new generalizing d with
  | nil => rfl
  | cons v new ih =>
    obtain ⟨hv, hn⟩ := List.forall_mem_cons.1 hn
    have hdv : ∀ w ∈ d ++ [v], m ∉ w.marks :=
      List.forall_mem_append.2 ⟨hd, List.forall_mem_singleton.2 hv⟩
    have hblank : ∀ w ∈ d ++ (v :: new).map (fun _ => Value.null), m ∉ w.marks :=
      List.forall_mem_append.2 ⟨hd, List.forall_mem_map.2 fun _ _ => List.not_mem_nil⟩
    have hstep : write [⟨m, .index d.length⟩] v
          (.array m (d ++ (v :: new).map fun _ => .null))
        = .array m (d ++ [v] ++ new.map fun _ => .null) := by
      rw [write_index_new hblank]
      simp
    have hih := ih hdv hn
    rw [List.length_append, List.length_singleton, List.append_assoc d [v] new] at hih
    rw [List.length_cons, List.range'_succ, List.map_cons (f := Step.index), List.zip_cons_cons,
      fill_cons, hstep]
    exact hih

/-- An object of nulls that is filled key by key has the members in order. -/
theorem fill_object {d new : List (String × Shared)}
    (hk : (Assoc.keys (d ++ new)).Nodup) (hd : ∀ p ∈ d, m ∉ p.2.marks)
    (hn : ∀ p ∈ new, m ∉ p.2.marks) :
    fill m (.object m (d ++ new.map fun p => (p.1, .null)))
        (new.map fun p => (.field p.1, p.2))
      = .object m (d ++ new) := by
  induction new generalizing d with
  | nil => rfl
  | cons p new ih =>
    obtain ⟨hp, hn⟩ := List.forall_mem_cons.1 hn
    have hdp : ∀ q ∈ d ++ [p], m ∉ q.2.marks :=
      List.forall_mem_append.2 ⟨hd, List.forall_mem_singleton.2 hp⟩
    have hblank : ∀ q ∈ d ++ (p :: new).map (fun p => (p.1, Value.null)), m ∉ q.2.marks :=
      List.forall_mem_append.2 ⟨hd, List.forall_mem_map.2 fun _ _ => List.not_mem_nil⟩
    have hnew : p.1 ∉ Assoc.keys d := by
      simp only [Assoc.keys, List.map_append, List.map_cons, List.nodup_append] at hk
      intro h
      exact hk.2.2 p.1 h p.1 List.mem_cons_self rfl
    have hstep : write [⟨m, .field p.1⟩] p.2
          (.object m (d ++ (p :: new).map fun p => (p.1, .null)))
        = .object m (d ++ [p] ++ new.map fun p => (p.1, .null)) := by
      rw [write_field_new hblank, List.map_cons, Assoc.put_append hnew]
      simp [Assoc.put]
    have hih := ih (by simpa using hk) hdp hn
    rw [List.append_assoc d [p] new] at hih
    rw [List.map_cons (f := fun p : String × Shared => (Step.field p.1, p.2)), fill_cons, hstep]
    exact hih

theorem fill_object_zip {names : List String} {xs : List Shared} (hl : names.length = xs.length)
    (hk : names.Nodup) (hx : ∀ x ∈ xs, m ∉ x.marks) :
    fill m (.object m (names.map fun name => (name, .null))) ((names.map Step.field).zip xs)
      = .object m (names.zip xs) := by
  have hfst : (names.zip xs).map Prod.fst = names := List.map_fst_zip (Nat.le_of_eq hl)
  have hblank : names.map (fun name => (name, (null : Shared)))
      = (names.zip xs).map fun p => (p.1, null) := by
    have h := congrArg (List.map fun name => (name, (null : Shared))) hfst
    rw [List.map_map] at h
    exact h.symm
  rw [hblank, List.zip_map_left]
  exact fill_object (d := []) (by rwa [Assoc.keys, List.nil_append, hfst]) nofun
    fun p hp => hx p.2 (List.of_mem_zip hp).2

end JsonPaths.Value
