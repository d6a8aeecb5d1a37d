/-
JsonPaths/Proofs/Storage/Directory.lean

A file that is written aside and moved into place.

Locations are resolved by directories alone, and the steps on files keep all directories
(`Keeps`).  So the location that a file is moved to is still there after the move and
means the same entry, and what is read there are the bytes that were written under the
other name (`read_of_replace`).
-/
import JsonPaths.Storage.Directory
import JsonPaths.Proofs.Except

namespace JsonPaths.Directory

variable {root root' d d' : Entries} {names ps qs : List (List Char)} {name : List Char}
  {e : Entry} {bytes : List UInt8} {l : Location}

/-! ### Entries -/

theorem entryAt_singleton (name : List Char) (d : Entries) :
    entryAt [name] d = d.lookup name := by
  unfold entryAt
  split
  · next h => rw [h]; rfl
  · next h => rw [h]; rfl
  · next h => rw [h]

theorem entryAt_cons_directory {p : List Char} (h : root.lookup p = some (.directory d))
    (ps : List (List Char)) : entryAt (p :: ps) root = entryAt ps d := by
  rw [entryAt, h]

theorem entryAt_append (h : entryAt ps root = some (.directory d)) (qs : List (List Char)) :
    entryAt (ps ++ qs) root = entryAt qs d := by
  induction ps generalizing root with
  | nil =>
    cases h
    rfl
  | cons p ps ih =>
    cases hp : root.lookup p with
    | none =>
      rw [entryAt, hp] at h
      cases h
    | some e =>
      cases e with
      | file bytes =>
        rw [entryAt, hp] at h
        dsimp only at h
        split at h <;> cases h
      | directory e =>
        rw [List.cons_append, entryAt_cons_directory hp]
        rw [entryAt_cons_directory hp] at h
        exact ih h

theorem lookup_remove_of_ne {p : List Char} (h : p ≠ name) (d : Entries) :
    (remove name d).lookup p = d.lookup p := by
  induction d with
  | nil => rfl
  | cons q d ih =>
    obtain ⟨k, a⟩ := q
    by_cases hk : k = name
    · have hp : (p == k) = false := by
        rw [hk]
        exact beq_eq_false_iff_ne.2 h
      rw [List.lookup_cons, hp, ← ih]
      simp [remove, hk]
    · have hcons : remove name ((k, a) :: d) = (k, a) :: remove name d :=
        List.filter_cons_of_pos (by simpa using hk)
      rw [hcons, List.lookup_cons, List.lookup_cons, ih]

/-! ### Directories are kept -/

/-- Names lead to a directory. -/
def IsDirectory (names : List (List Char)) (root : Entries) : Prop :=
  ∃ d, entryAt names root = some (.directory d)

/-- What is a directory stays one. -/
def Keeps (root root' : Entries) : Prop :=
  ∀ names, IsDirectory names root → IsDirectory names root'

theorem Keeps.trans {root'' : Entries} (h : Keeps root root') (h' : Keeps root' root'') :
    Keeps root root'' := fun names hn => h' names (h names hn)

/-- Entries that differ under one name only, where no directory is, have the same
directories. -/
theorem keeps_of_lookup (hn : ∀ d', d.lookup name ≠ some (.directory d'))
    (h : ∀ p, p ≠ name → d'.lookup p = d.lookup p) : Keeps d d' := by
  rintro names ⟨e, he⟩
  cases names with
  | nil => exact ⟨d', rfl⟩
  | cons p ps =>
    have hp : p ≠ name := by
      rintro rfl
      cases hl : d.lookup p with
      | none =>
        rw [entryAt, hl] at he
        cases he
      | some x =>
        cases x with
        | directory x => exact hn x hl
        | file bytes =>
          rw [entryAt, hl] at he
          dsimp only at he
          split at he <;> cases he
    refine ⟨e, ?_⟩
    rw [entryAt, h p hp]
    rwa [entryAt] at he

theorem putFile_eq_ok {u : Unit} (h : putFile name e d = .ok (u, d')) :
    Keeps d d' ∧ d'.lookup name = some e := by
  unfold putFile at h
  split at h
  · cases h
  · next hn =>
    cases h
    exact ⟨keeps_of_lookup hn fun p hp => Assoc.lookup_put_of_ne hp e d,
      Assoc.lookup_put_self name e d⟩

theorem takeEntry_eq_ok (hf : d.lookup name = some (.file bytes))
    (h : takeEntry name d = .ok (e, d')) : e = .file bytes ∧ Keeps d d' := by
  rw [takeEntry, hf] at h
  cases h
  exact ⟨rfl, keeps_of_lookup (by simp [hf]) fun p hp => lookup_remove_of_ne hp d⟩

/-! ### A change below the root -/

/-- A change of one directory shows there, and keeps all directories if it keeps those
below that one. -/
theorem change_eq_ok {α : Type} {f : Entries → Except StorageFault (α × Entries)} {a : α}
    (h : change f ps root = .ok (a, root')) :
    ∃ d d', entryAt ps root = some (.directory d) ∧ f d = .ok (a, d') ∧
      entryAt ps root' = some (.directory d') ∧ (Keeps d d' → Keeps root root') := by
  induction ps generalizing root root' with
  | nil => exact ⟨root, root', rfl, h, rfl, id⟩
  | cons p ps ih =>
    unfold change at h
    split at h
    · cases h
    · cases h
    · next e hp =>
      obtain ⟨⟨b, e'⟩, he, hb⟩ := Except.map_eq_ok.1 h
      cases hb
      obtain ⟨d, d', hd, hf, hd', hkeeps⟩ := ih he
      have hp' := Assoc.lookup_put_self p (.directory e') root
      refine ⟨d, d', by rwa [entryAt_cons_directory hp], hf,
        by rwa [entryAt_cons_directory hp'], fun hk names hn => ?_⟩
      obtain ⟨x, hx⟩ := hn
      cases names with
      | nil => exact ⟨_, rfl⟩
      | cons q qs =>
        by_cases hq : q = p
        · rw [hq, entryAt_cons_directory hp] at hx
          rw [hq, IsDirectory, entryAt_cons_directory hp']
          exact hkeeps hk qs ⟨x, hx⟩
        · refine ⟨x, ?_⟩
          rw [entryAt, Assoc.lookup_put_of_ne hq]
          rwa [entryAt] at hx

/-! ### Resolving -/

theorem openDirectory_of_keeps (h : Keeps root root') {start : List (List Char)}
    (ho : openDirectory root start ps = .ok names) :
    openDirectory root' start ps = .ok names := by
  induction ps generalizing start with
  | nil => exact ho
  | cons p ps ih =>
    unfold openDirectory at ho ⊢
    split
    · next hp =>
      rw [if_pos hp] at ho
      exact ih ho
    · next hp =>
      rw [if_neg hp] at ho
      split
      · next hlong =>
        rw [if_pos hlong] at ho
        cases ho
      · next hlong =>
        rw [if_neg hlong] at ho
        split at ho
        · cases ho
        · cases ho
        · next hdir =>
          obtain ⟨d', hd'⟩ := h (start ++ [p]) ⟨_, hdir⟩
          rw [hd']
          exact ih ho

/-- A location keeps its meaning where directories are kept. -/
theorem resolve_of_keeps (h : Keeps root root') {t : Target} (hr : resolve root l = .ok t) :
    resolve root' l = .ok t := by
  unfold resolve at hr ⊢
  split
  · next hnul =>
    rw [if_pos hnul] at hr
    cases hr
  · next hnul =>
    rw [if_neg hnul] at hr
    split
    · next hlong =>
      rw [if_pos hlong] at hr
      cases hr
    · next hlong =>
      rw [if_neg hlong] at hr
      split at hr
      · cases hr
      · next ho =>
        rw [openDirectory_of_keeps h ho]
        exact hr

/-! ### Steps -/

theorem write_eq_ok (h : write l bytes root = .ok root') :
    ∃ parent name, resolve root l = .ok (.entry parent name) ∧
      entryAt (parent ++ [name]) root' = some (.file bytes) ∧ Keeps root root' := by
  unfold write at h
  split at h
  · cases h
  · cases h
  · next parent name hr =>
    obtain ⟨⟨u, r⟩, hc, rfl⟩ := Except.map_eq_ok.1 h
    obtain ⟨d, d', -, hf, hd', hkeeps⟩ := change_eq_ok hc
    obtain ⟨hk, hlookup⟩ := putFile_eq_ok hf
    refine ⟨parent, name, hr, ?_, hkeeps hk⟩
    rw [entryAt_append hd', entryAt_singleton, hlookup]

/-- A replacement takes an entry from one place and puts it at another. -/
theorem replace_eq_ok {source target : Location} (h : replace source target root = .ok root') :
    ∃ parent name parent' name' taken,
      resolve root source = .ok (.entry parent name) ∧
      resolve root target = .ok (.entry parent' name') ∧
      ∃ e, change (takeEntry name) parent root = .ok (e, taken) ∧
        change (putFile name' e) parent' taken = .ok ((), root') := by
  unfold replace at h
  simp only [bind, Except.bind] at h
  split at h
  · cases h
  next hs =>
  split at h
  · cases h
  next ht =>
  split at h
  · split at h
    · cases h
    next hc =>
    split at h
    · cases h
    next hp =>
    cases h
    exact ⟨_, _, _, _, _, hs, ht, _, hc, hp⟩
  · cases h

/-- **What is written aside and moved into place is read there.** -/
theorem read_of_replace {temporary place : Location} {written moved : Entries}
    (hw : write temporary bytes root = .ok written)
    (hr : replace temporary place written = .ok moved) : read place moved = .ok bytes := by
  obtain ⟨parent, name, htemporary, hfile, hkeeps⟩ := write_eq_ok hw
  obtain ⟨p, n, parent', name', taken, hs, ht, e, htake, hput⟩ := replace_eq_ok hr
  cases (resolve_of_keeps hkeeps htemporary).symm.trans hs
  obtain ⟨d, d₁, hd, htake, -, hkeeps₁⟩ := change_eq_ok htake
  rw [entryAt_append hd, entryAt_singleton] at hfile
  obtain ⟨rfl, hk₁⟩ := takeEntry_eq_ok hfile htake
  obtain ⟨d₂, d₃, -, hput, hd₃, hkeeps₂⟩ := change_eq_ok hput
  obtain ⟨hk₂, hlookup⟩ := putFile_eq_ok hput
  have hplace := resolve_of_keeps ((hkeeps₁ hk₁).trans (hkeeps₂ hk₂)) ht
  rw [read, hplace]
  dsimp only
  rw [entryAt_append hd₃, entryAt_singleton, hlookup]

end JsonPaths.Directory
