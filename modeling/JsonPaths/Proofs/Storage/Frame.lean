/-
JsonPaths/Proofs/Storage/Frame.lean

What steps on files leave as it was.

A tree of directories is described by what stands under each row of names: a file with
its bytes, a directory, or nothing (`itemAt`).  A directory says nothing of its entries
here, since these stand under longer rows.  A change in one row of a directory is a change
in one row of the tree (`exists_change`).  So writing a file changes one row, and moving a
file changes two, the one that it leaves and the one that it comes to (`write_file`,
`replace_file`); under all other rows the tree is the same (`SameBut`).
-/
import JsonPaths.Proofs.Storage.Directory

namespace JsonPaths

/-! ### Locations -/

namespace Location

variable {l : Location}

theorem parts_of_name_ne_nil (h : l.name ≠ []) : l.parts.dropLast ++ [l.name] = l.parts := by
  cases hl : l.parts.getLast? with
  | none =>
    rw [name, hl] at h
    exact absurd rfl h
  | some p =>
    obtain ⟨ps, hps⟩ := List.getLast?_eq_some_iff.1 hl
    rw [name, hl, hps, List.dropLast_concat]
    rfl

@[simp] theorem name_addEnding (l : Location) (ending : List Char) :
    (l.addEnding ending).name = l.name ++ ending := by
  simp [name, addEnding]

@[simp] theorem dropLast_addEnding (l : Location) (ending : List Char) :
    (l.addEnding ending).parts.dropLast = l.parts.dropLast := by
  simp [addEnding]

theorem intercalate_concat_append (s : List Char) (ps : List (List Char)) (p q : List Char) :
    s.intercalate (ps ++ [p ++ q]) = s.intercalate (ps ++ [p]) ++ q := by
  induction ps with
  | nil => simp
  | cons a ps ih =>
    obtain ⟨b, bs, hb⟩ := List.exists_cons_of_ne_nil (show ps ++ [p] ≠ [] by simp)
    obtain ⟨c, cs, hc⟩ := List.exists_cons_of_ne_nil (show ps ++ [p ++ q] ≠ [] by simp)
    rw [hb, hc] at ih
    rw [List.cons_append, List.cons_append, hb, hc, List.intercalate_cons_cons,
      List.intercalate_cons_cons, ih, List.append_assoc, List.append_assoc, List.append_assoc]

/-- The ending comes to the end of the name. -/
theorem text_addEnding (h : l.name ≠ []) (ending : List Char) :
    (l.addEnding ending).text = l.text ++ ending := by
  have hparts := parts_of_name_ne_nil h
  have hne : l.parts ≠ [] := by
    rw [← hparts]
    simp
  rw [text, if_neg (by simp [addEnding]), text, if_neg (fun e => hne e.2)]
  show List.replicate l.slashes '/' ++ _ = _
  rw [addEnding, intercalate_concat_append, hparts, List.append_assoc]

end Location

namespace Directory

/-! ### What stands under a row of names -/

/-- What stands under a row of names: a file with its bytes, or a directory with whatever
entries. -/
inductive Item where
  | file (bytes : List UInt8)
  | directory
  deriving DecidableEq

/-- An entry without what is below it. -/
def item : Entry → Item
  | .file bytes => .file bytes
  | .directory _ => .directory

/-- What stands under a row of names from the root. -/
def itemAt (names : List (List Char)) (root : Entries) : Option Item :=
  (entryAt names root).map item

/-- Two trees are the same under all rows of names but the given ones. -/
def SameBut (rows : List (List (List Char))) (root root' : Entries) : Prop :=
  ∀ names, names ∉ rows → itemAt names root' = itemAt names root

variable {root root' root'' d d' : Entries} {rows : List (List (List Char))}
  {names ps qs : List (List Char)} {name p : List Char} {bytes : List UInt8}

theorem SameBut.mono {rows' : List (List (List Char))} (h : SameBut rows root root')
    (hr : ∀ r ∈ rows, r ∈ rows') : SameBut rows' root root' :=
  fun names hn => h names fun hm => hn (hr names hm)

theorem SameBut.trans (h : SameBut rows root root') (h' : SameBut rows root' root'') :
    SameBut rows root root'' :=
  fun names hn => (h' names hn).trans (h names hn)

theorem itemAt_append (h : entryAt ps root = some (.directory d)) (qs : List (List Char)) :
    itemAt (ps ++ qs) root = itemAt qs d := by
  rw [itemAt, entryAt_append h, itemAt]

theorem itemAt_singleton (name : List Char) (d : Entries) :
    itemAt [name] d = (d.lookup name).map item := by
  rw [itemAt, entryAt_singleton]

theorem itemAt_eq_directory : itemAt names root = some .directory ↔ IsDirectory names root := by
  rw [itemAt, IsDirectory]
  cases entryAt names root with
  | none => simp
  | some e =>
    cases e with
    | file bytes => simp [item]
    | directory d => exact iff_of_true rfl ⟨d, rfl⟩

/-- If a tree changes in one row, where no directory is, then all directories stay. -/
theorem SameBut.keeps {row : List (List Char)} (h : SameBut [row] root root')
    (hrow : itemAt row root ≠ some .directory) : Keeps root root' := by
  intro names hn
  rw [← itemAt_eq_directory] at hn ⊢
  have hne : names ∉ [row] := fun hm => hrow (List.mem_singleton.1 hm ▸ hn)
  rw [h names hne, hn]

/-- What stands below a name depends on the entry of that name only. -/
theorem itemAt_cons_congr (h : d'.lookup p = d.lookup p) (ps : List (List Char)) :
    itemAt (p :: ps) d' = itemAt (p :: ps) d := by
  rw [itemAt, itemAt, entryAt, entryAt, h]

/-- Below a name that is no directory there is nothing. -/
theorem itemAt_below (h : itemAt [p] d ≠ some .directory) (hps : ps ≠ []) :
    itemAt (p :: ps) d = none := by
  rw [itemAt_singleton] at h
  rw [itemAt, entryAt]
  cases hp : d.lookup p with
  | none => rfl
  | some e =>
    cases e with
    | directory e => exact absurd (by rw [hp]; rfl) h
    | file bytes =>
      have : ps.isEmpty = false := by simpa using hps
      simp [this]

/-- Entries that differ under one name only, with a directory in neither, differ in that
row only. -/
theorem sameBut_of_lookup (hd : itemAt [name] d ≠ some .directory)
    (hd' : itemAt [name] d' ≠ some .directory)
    (h : ∀ p, p ≠ name → d'.lookup p = d.lookup p) : SameBut [[name]] d d' := by
  intro names hn
  cases names with
  | nil => rfl
  | cons p ps =>
    by_cases hp : p = name
    · subst hp
      have hps : ps ≠ [] := fun e => hn (by simp [e])
      rw [itemAt_below hd hps, itemAt_below hd' hps]
    · exact itemAt_cons_congr (h p hp) ps

/-! ### A change below the root -/

section Change

variable {α : Type} {f : Entries → Except StorageFault (α × Entries)} {a : α}

/-- A change of a directory that is there comes to what the change comes to. -/
theorem map_change (h : entryAt ps root = some (.directory d)) :
    (change f ps root).map Prod.fst = (f d).map Prod.fst := by
  induction ps generalizing root with
  | nil =>
    cases h
    rfl
  | cons p ps ih =>
    rw [entryAt] at h
    rw [change]
    cases hp : root.lookup p with
    | none =>
      rw [hp] at h
      cases h
    | some e =>
      rw [hp] at h
      cases e with
      | file bytes =>
        dsimp only at h
        split at h <;> cases h
      | directory e =>
        dsimp only at h ⊢
        rw [← ih h]
        cases change f ps e <;> rfl

/-- A change in one row of a directory is a change in one row of the tree. -/
theorem sameBut_change (hc : change f ps root = .ok (a, root'))
    (hd : entryAt ps root = some (.directory d)) (hf : f d = .ok (a, d'))
    (h : SameBut [[name]] d d') : SameBut [ps ++ [name]] root root' := by
  induction ps generalizing root root' with
  | nil =>
    cases hd
    rw [change, hf] at hc
    cases hc
    exact h
  | cons p ps ih =>
    intro names hn
    unfold change at hc
    split at hc
    · cases hc
    · cases hc
    next e hp =>
    obtain ⟨⟨b, e'⟩, he, hb⟩ := Except.map_eq_ok.1 hc
    cases hb
    rw [entryAt_cons_directory hp] at hd
    cases names with
    | nil => rfl
    | cons q qs =>
      by_cases hq : q = p
      · subst hq
        have hqs : qs ∉ [ps ++ [name]] := by simpa using hn
        have hq' := Assoc.lookup_put_self q (.directory e') root
        rw [itemAt, entryAt_cons_directory hq', itemAt, entryAt_cons_directory hp]
        exact ih he hd qs hqs
      · exact itemAt_cons_congr (Assoc.lookup_put_of_ne hq _ root) qs

/-- A change that goes through in the directory goes through in the tree. -/
theorem exists_change (hd : entryAt ps root = some (.directory d)) (hf : f d = .ok (a, d'))
    (h : SameBut [[name]] d d') :
    ∃ root', change f ps root = .ok (a, root') ∧
      itemAt (ps ++ [name]) root' = itemAt [name] d' ∧ SameBut [ps ++ [name]] root root' := by
  have hmap := map_change (f := f) hd
  rw [hf] at hmap
  obtain ⟨⟨b, root'⟩, hc, hb⟩ := Except.map_eq_ok.1 hmap
  cases hb
  obtain ⟨e, e', he, hfe, he', -⟩ := change_eq_ok hc
  cases hd.symm.trans he
  cases hf.symm.trans hfe
  exact ⟨root', hc, itemAt_append he' [name], sameBut_change hc hd hf h⟩

theorem change_of_refused {fault : StorageFault} (hd : entryAt ps root = some (.directory d))
    (hf : f d = .error fault) : change f ps root = .error fault := by
  have hmap := map_change (f := f) hd
  rw [hf] at hmap
  exact Except.map_eq_error.1 hmap

end Change

/-! ### Steps -/

/-- A file is put under a name unless that is the name of a directory. -/
theorem putFile_file (name : List Char) (bytes : List UInt8) (d : Entries) :
    (itemAt [name] d = some .directory → putFile name (.file bytes) d = .error .isDirectory) ∧
      (itemAt [name] d ≠ some .directory → ∃ d', putFile name (.file bytes) d = .ok ((), d') ∧
        itemAt [name] d' = some (.file bytes) ∧ SameBut [[name]] d d') := by
  have hitem : itemAt [name] (Assoc.put name (.file bytes) d) = some (.file bytes) := by
    rw [itemAt_singleton, Assoc.lookup_put_self]
    rfl
  have hsame (hd : itemAt [name] d ≠ some .directory) :
      SameBut [[name]] d (Assoc.put name (.file bytes) d) :=
    sameBut_of_lookup hd (by simp [hitem]) fun p hp => Assoc.lookup_put_of_ne hp _ d
  rw [putFile]
  have hat := itemAt_singleton name d
  cases hl : d.lookup name with
  | none =>
    rw [hl] at hat
    exact ⟨fun h => by simp [hat] at h, fun h => ⟨_, rfl, hitem, hsame h⟩⟩
  | some e =>
    rw [hl] at hat
    cases e with
    | directory e => exact ⟨fun _ => rfl, fun h => absurd hat h⟩
    | file old => exact ⟨fun h => by simp [hat, item] at h, fun h => ⟨_, rfl, hitem, hsame h⟩⟩

/-- A file is taken from under its name. -/
theorem takeEntry_file (h : itemAt [name] d = some (.file bytes)) :
    ∃ d', takeEntry name d = .ok (.file bytes, d') ∧ itemAt [name] d' = none ∧
      SameBut [[name]] d d' := by
  rw [itemAt_singleton, Option.map_eq_some_iff] at h
  obtain ⟨e, hl, he⟩ := h
  obtain rfl : e = .file bytes := by
    cases e <;> cases he
    rfl
  have hnone : (remove name d).lookup name = none := by
    rw [List.lookup_eq_none_iff]
    intro q hq
    have hne : q.1 ≠ name := bne_iff_ne.1 (List.mem_filter.1 hq).2
    exact bne_iff_ne.2 hne.symm
  refine ⟨remove name d, by rw [takeEntry, hl], by rw [itemAt_singleton, hnone]; rfl, ?_⟩
  refine sameBut_of_lookup ?_ ?_ fun p hp => lookup_remove_of_ne hp d
  · rw [itemAt_singleton, hl]
    simp [item]
  · rw [itemAt_singleton, hnone]
    simp

/-- Putting a file into a directory of the tree changes one row, where no directory was. -/
theorem change_putFile {parent : List (List Char)} (name : List Char) (bytes : List UInt8)
    (hp : IsDirectory parent root) :
    (itemAt (parent ++ [name]) root = some .directory →
        change (putFile name (.file bytes)) parent root = .error .isDirectory) ∧
      (itemAt (parent ++ [name]) root ≠ some .directory →
        ∃ root', change (putFile name (.file bytes)) parent root = .ok ((), root') ∧
          itemAt (parent ++ [name]) root' = some (.file bytes) ∧
          SameBut [parent ++ [name]] root root') := by
  obtain ⟨d, hd⟩ := hp
  obtain ⟨hdir, hfile⟩ := putFile_file name bytes d
  rw [itemAt_append hd]
  refine ⟨fun h => change_of_refused hd (hdir h), fun h => ?_⟩
  obtain ⟨d', hput, hitem, hsame⟩ := hfile h
  obtain ⟨root', hc, hat, hroot⟩ := exists_change hd hput hsame
  exact ⟨root', hc, hat.trans hitem, hroot⟩

/-- Taking a file from a directory of the tree changes one row, and every directory is
still there. -/
theorem change_takeEntry {parent : List (List Char)}
    (hf : itemAt (parent ++ [name]) root = some (.file bytes)) (hp : IsDirectory parent root) :
    ∃ root', change (takeEntry name) parent root = .ok (.file bytes, root') ∧
      itemAt (parent ++ [name]) root' = none ∧ SameBut [parent ++ [name]] root root' ∧
      Keeps root root' := by
  obtain ⟨d, hd⟩ := hp
  have hfile := hf
  rw [itemAt_append hd] at hfile
  obtain ⟨d', htake, hnone, hsame⟩ := takeEntry_file hfile
  obtain ⟨root', hc, hat, hroot⟩ := exists_change hd htake hsame
  exact ⟨root', hc, hat.trans hnone, hroot, hroot.keeps (by simp [hf])⟩

/-- Writing changes one row, where no directory was. -/
theorem write_file {l : Location} {parent : List (List Char)}
    (hr : resolve root l = .ok (.entry parent name)) (hp : IsDirectory parent root) :
    (itemAt (parent ++ [name]) root = some .directory →
        write l bytes root = .error .isDirectory) ∧
      (itemAt (parent ++ [name]) root ≠ some .directory →
        ∃ root', write l bytes root = .ok root' ∧
          itemAt (parent ++ [name]) root' = some (.file bytes) ∧
          SameBut [parent ++ [name]] root root') := by
  obtain ⟨hdir, hfile⟩ := change_putFile name bytes hp
  rw [write, hr]
  dsimp only
  refine ⟨fun h => by rw [hdir h, Except.map], fun h => ?_⟩
  obtain ⟨root', hc, hat, hsame⟩ := hfile h
  exact ⟨root', by rw [hc, Except.map], hat, hsame⟩

/-- A file can be written where there is a directory to hold it and none in its place. -/
theorem exists_write_iff {l : Location} :
    (∃ root', write l bytes root = .ok root') ↔ ∃ parent name,
      resolve root l = .ok (.entry parent name) ∧ IsDirectory parent root ∧
        itemAt (parent ++ [name]) root ≠ some .directory := by
  constructor
  · rintro ⟨root', h⟩
    obtain ⟨parent, name, hr, -⟩ := write_eq_ok h
    have hp : IsDirectory parent root := by
      rw [write, hr] at h
      obtain ⟨⟨u, r⟩, hc, -⟩ := Except.map_eq_ok.1 h
      obtain ⟨d, -, hd, -⟩ := change_eq_ok hc
      exact ⟨d, hd⟩
    refine ⟨parent, name, hr, hp, fun hdir => ?_⟩
    rw [(write_file hr hp).1 hdir] at h
    cases h
  · rintro ⟨parent, name, hr, hp, hfree⟩
    obtain ⟨root', h, -⟩ := (write_file hr hp).2 hfree
    exact ⟨root', h⟩

/-- Moving a file changes two rows: the one that it leaves and the one that it comes to,
where no directory may be. -/
theorem replace_file {source target : Location} {parent parent' : List (List Char)}
    {name' : List Char} (hs : resolve root source = .ok (.entry parent name))
    (ht : resolve root target = .ok (.entry parent' name'))
    (hf : itemAt (parent ++ [name]) root = some (.file bytes))
    (hp : IsDirectory parent root) (hp' : IsDirectory parent' root)
    (hne : parent' ++ [name'] ≠ parent ++ [name]) :
    (itemAt (parent' ++ [name']) root = some .directory →
        replace source target root = .error .isDirectory) ∧
      (itemAt (parent' ++ [name']) root ≠ some .directory →
        ∃ root', replace source target root = .ok root' ∧
          itemAt (parent' ++ [name']) root' = some (.file bytes) ∧
          itemAt (parent ++ [name]) root' = none ∧
          SameBut [parent ++ [name], parent' ++ [name']] root root') := by
  obtain ⟨taken, hc, hgone, htaken, hkeep⟩ := change_takeEntry hf hp
  have hsame : itemAt (parent' ++ [name']) taken = itemAt (parent' ++ [name']) root :=
    htaken _ (by simpa using hne)
  obtain ⟨hdir, hfile⟩ := change_putFile name' bytes (hkeep _ hp')
  rw [hsame] at hdir hfile
  refine ⟨fun h => ?_, fun h => ?_⟩
  · simp only [replace, hs, ht, bind, Except.bind, hc, hdir h]
  · obtain ⟨root', hc', hat, hput⟩ := hfile h
    refine ⟨root', ?_, hat, ?_, ?_⟩
    · simp only [replace, hs, ht, bind, Except.bind, hc, hc']
      rfl
    · rw [hput _ (by simpa using hne.symm), hgone]
    · exact (htaken.mono (by simp)).trans (hput.mono (by simp))

/-! ### Locations side by side -/

theorem byteCount_append (s t : List Char) :
    byteCount (s ++ t) = byteCount s + byteCount t := by
  rw [byteCount, String.ofList_append, String.utf8ByteSize_append, byteCount, byteCount]

/-- Where a name with an ending is an entry of a directory, the name without it is one of
the same directory, unless it leads to the directory above. -/
theorem resolve_addEnding {l : Location} {ending : List Char} {t : Target}
    (hn : l.name ≠ []) (he : 2 < ending.length)
    (h : resolve root (l.addEnding ending) = .ok t) :
    ∃ parent, t = .entry parent (l.name ++ ending) ∧
      resolve root l =
        if l.name = Location.above then .ok .directory else .ok (.entry parent l.name) := by
  have hname : ¬(l.name ++ ending = [] ∨ l.name ++ ending = Location.above) := by
    rintro (e | e)
    · exact hn (List.append_eq_nil_iff.1 e).1
    · have hlength := congrArg List.length e
      rw [List.length_append, Location.above] at hlength
      simp only [List.length_cons, List.length_nil] at hlength
      omega
  unfold resolve at h ⊢
  rw [Location.text_addEnding hn, Location.dropLast_addEnding, Location.name_addEnding] at h
  split at h
  · cases h
  next hnul =>
  split at h
  · cases h
  next hlong =>
  split at h
  · cases h
  next parent ho =>
  -- the longer name is no way to the directory above (`hname`)
  split at h
  · cases h
  next hpart =>
  cases h
  refine ⟨parent, rfl, ?_⟩
  rw [byteCount_append] at hlong hpart
  have hnul' : ¬l.text.contains '\x00' = true := by
    intro hc
    apply hnul
    rw [List.contains_append, hc, Bool.true_or]
  have ho' : openDirectory root (if l.slashes = 0 then current else []) l.parts.dropLast
      = .ok parent := ho
  rw [if_neg hnul', if_neg (by omega), ho']
  dsimp only
  by_cases habove : l.name = Location.above
  · rw [if_pos (.inr habove), if_pos habove]
  · rw [if_neg (by simp [hn, habove]), if_neg (by omega), if_neg habove]

end Directory

end JsonPaths
