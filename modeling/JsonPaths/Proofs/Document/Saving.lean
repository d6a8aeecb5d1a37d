/-
JsonPaths/Proofs/Document/Saving.lean

Saving to a file, and what it leaves behind.

A save writes the text aside, under the name of the target with an ending, and moves it
over the target.  It is refused before anything is written, or it is stuck between the two
steps since the target is a directory, or it goes through.  In all three cases nothing
else is touched (`saveTo_of_refused`, `saveTo_of_blocked`, `saveTo_of_clear`).  So a
save is all or nothing but for the name that is written aside: what was there before is
lost, and what is written there stays if the save is stuck (`allOrNothing_iff`).
-/
import JsonPaths.Proofs.Document.RoundTrip
import JsonPaths.Proofs.Storage.Frame

namespace JsonPaths.Document

open Directory (itemAt IsDirectory SameBut)

variable {d : Document} {files : Directory.Entries} {place : Location} {text : String}
  {parent : List (List Char)}

/-! ### The text -/

/-- The layout in which a document is saved to a file.  A string has no parts to set
apart. -/
def HasLayout (d : Document) (l : Json.Layout) : Prop :=
  d.layout = .ok l ∨ (∃ s, d.value = .string s) ∧ l = .spaced

/-- What is saved to a file is the whole text of the value and a line feed. -/
theorem hasLayout_of_fileContent (h : d.fileContent = .ok text) :
    ∃ l t, d.HasLayout l ∧ Json.write l d.value = some t ∧ text = t ++ "\n" := by
  unfold fileContent at h
  split at h
  · next s hs =>
    cases h
    exact ⟨.spaced, _, .inr ⟨⟨s, hs⟩, rfl⟩, hs ▸ write_string .spaced s, rfl⟩
  · obtain ⟨l, t, hl, ht, rfl⟩ := savedText_eq_ok_iff.1 h
    exact ⟨l, t, .inl hl, ht, rfl⟩

/-! ### What a save depends on -/

/-- The row of names of the target, in the directory `parent`. -/
def targetRow (parent : List (List Char)) (place : Location) : List (List Char) :=
  parent ++ [place.name]

/-- The row of names under which the text is written aside. -/
def spareRow (parent : List (List Char)) (place : Location) : List (List Char) :=
  parent ++ [place.name ++ temporaryEnding]

theorem targetRow_ne_spareRow (parent : List (List Char)) (place : Location) :
    targetRow parent place ≠ spareRow parent place := by
  intro h
  have hname : place.name = place.name ++ temporaryEnding := by
    simpa [targetRow, spareRow] using h
  have hlength := congrArg List.length hname
  rw [List.length_append] at hlength
  have : temporaryEnding.length = 4 := by decide
  omega

theorem targetRow_notMem (parent : List (List Char)) (place : Location) :
    targetRow parent place ∉ [spareRow parent place] := by
  rw [List.mem_singleton]
  exact targetRow_ne_spareRow parent place

/-- The save of a document gets as far as writing `text` aside in the directory `parent`:
there is a text, the target has a name, and no directory is in the way. -/
structure SetsAside (d : Document) (files : Directory.Entries) (place : Location)
    (text : String) (parent : List (List Char)) : Prop where
  content : d.fileContent = .ok text
  named : place.name ≠ []
  resolved : Directory.resolve files (place.addEnding temporaryEnding) =
    .ok (.entry parent (place.name ++ temporaryEnding))
  directory : IsDirectory parent files
  free : itemAt (spareRow parent place) files ≠ some .directory

/-- Nothing can be moved over the target, since it is a directory. -/
def Blocked (files : Directory.Entries) (place : Location) (parent : List (List Char)) : Prop :=
  place.name = Location.above ∨ itemAt (targetRow parent place) files = some .directory

instance : Decidable (Blocked files place parent) := inferInstanceAs (Decidable (_ ∨ _))

/-! ### What a save comes to -/

/-- A save that is refused changes nothing. -/
theorem saveTo_of_refused (h : ∀ text parent, ¬d.SetsAside files place text parent) :
    ∃ e, d.saveTo files place = (.error e, files, []) := by
  unfold saveTo
  split
  · exact ⟨_, rfl⟩
  next text htext =>
  split
  · exact ⟨_, rfl⟩
  next hname =>
  have hnamed : place.name ≠ [] := by simpa using hname
  dsimp only
  split
  · exact ⟨_, rfl⟩
  next written hw =>
  obtain ⟨parent, name, hr, hp, hfree⟩ := Directory.exists_write_iff.1 ⟨written, hw⟩
  obtain ⟨parent', he, -⟩ := Directory.resolve_addEnding hnamed (by decide) hr
  cases he
  exact absurd ⟨htext, hnamed, hr, hp, hfree⟩ (h text parent)

/-- What is written aside, with the tree around it. -/
theorem SetsAside.exists_written (h : d.SetsAside files place text parent) :
    ∃ written, Directory.write (place.addEnding temporaryEnding)
        (Text.Utf8.encode text.toList) files = .ok written ∧
      itemAt (spareRow parent place) written = some (.file (Text.Utf8.encode text.toList)) ∧
      SameBut [spareRow parent place] files written ∧ Directory.Keeps files written := by
  obtain ⟨written, hw, hitem, hsame⟩ := (Directory.write_file h.resolved h.directory).2 h.free
  exact ⟨written, hw, hitem, hsame, hsame.keeps h.free⟩

/-- What the save comes to when the text is moved over the target. -/
theorem SetsAside.saveTo_eq {written : Directory.Entries}
    (h : d.SetsAside files place text parent)
    (hw : Directory.write (place.addEnding temporaryEnding) (Text.Utf8.encode text.toList) files
      = .ok written) :
    d.saveTo files place =
      match Directory.replace (place.addEnding temporaryEnding) place written with
      | .error f => (.error (.move f (place.addEnding temporaryEnding) place), written, [])
      | .ok moved => (.ok (), moved,
          [⟨Log.debug, s!"saved document to {String.ofList place.text}", none⟩]) := by
  have hname : ¬place.name.isEmpty = true := by simpa using h.named
  cases hm : Directory.replace (place.addEnding temporaryEnding) place written with
  | error f => simp only [saveTo, h.content, if_neg hname, hw, hm]
  | ok moved => simp only [saveTo, h.content, if_neg hname, hw, hm]

/-- A save onto a directory is stuck: the move fails, and the text stays where it was
written aside. -/
theorem saveTo_of_blocked (h : d.SetsAside files place text parent)
    (hb : Blocked files place parent) :
    ∃ f after, d.saveTo files place =
        (.error (.move f (place.addEnding temporaryEnding) place), after, []) ∧
      itemAt (spareRow parent place) after = some (.file (Text.Utf8.encode text.toList)) ∧
      SameBut [spareRow parent place] files after := by
  obtain ⟨written, hw, hitem, hsame, hkeeps⟩ := h.exists_written
  obtain ⟨_, he, htarget⟩ := Directory.resolve_addEnding h.named (by decide) h.resolved
  cases he
  have hs := Directory.resolve_of_keeps hkeeps h.resolved
  have hmove : ∃ f, Directory.replace (place.addEnding temporaryEnding) place written
      = .error f := by
    by_cases habove : place.name = Location.above
    · rw [if_pos habove] at htarget
      have ht := Directory.resolve_of_keeps hkeeps htarget
      exact ⟨.busy, by simp only [Directory.replace, hs, ht, bind, Except.bind]⟩
    · rw [if_neg habove] at htarget
      have ht := Directory.resolve_of_keeps hkeeps htarget
      have hp := hkeeps _ h.directory
      have hdir := hb.resolve_left habove
      rw [← hsame _ (targetRow_notMem parent place)] at hdir
      exact ⟨.isDirectory, (Directory.replace_file hs ht hitem hp hp
        (targetRow_ne_spareRow parent place)).1 hdir⟩
  obtain ⟨f, hmove⟩ := hmove
  refine ⟨f, written, ?_, hitem, hsame⟩
  rw [h.saveTo_eq hw, hmove]

/-- A save that is neither refused nor stuck goes through: the text is under the target,
and nothing is left under the name that was written aside. -/
theorem saveTo_of_clear (h : d.SetsAside files place text parent)
    (hb : ¬Blocked files place parent) :
    ∃ after log, d.saveTo files place = (.ok (), after, log) ∧
      Directory.resolve files place = .ok (.entry parent place.name) ∧
      itemAt (targetRow parent place) after = some (.file (Text.Utf8.encode text.toList)) ∧
      itemAt (spareRow parent place) after = none ∧
      SameBut [spareRow parent place, targetRow parent place] files after := by
  obtain ⟨written, hw, hitem, hsame, hkeeps⟩ := h.exists_written
  obtain ⟨_, he, htarget⟩ := Directory.resolve_addEnding h.named (by decide) h.resolved
  cases he
  obtain ⟨habove, hdir⟩ := not_or.1 hb
  rw [if_neg habove] at htarget
  rw [← hsame _ (targetRow_notMem parent place)] at hdir
  have hs := Directory.resolve_of_keeps hkeeps h.resolved
  have ht := Directory.resolve_of_keeps hkeeps htarget
  have hp := hkeeps _ h.directory
  obtain ⟨after, hmove, hat, hgone, hsame'⟩ := (Directory.replace_file hs ht hitem hp hp
    (targetRow_ne_spareRow parent place)).2 hdir
  have hsave := h.saveTo_eq hw
  rw [hmove] at hsave
  exact ⟨after, _, hsave, htarget, hat, hgone, (hsame.mono (by simp)).trans hsame'⟩

/-- There is one text and one directory that a save writes aside. -/
theorem SetsAside.unique {text' : String} {parent' : List (List Char)}
    (h : d.SetsAside files place text parent) (h' : d.SetsAside files place text' parent') :
    text' = text ∧ parent' = parent := by
  have htext := h'.content.symm.trans h.content
  have hrow := h'.resolved.symm.trans h.resolved
  cases htext
  cases hrow
  exact ⟨rfl, rfl⟩

/-! ### All or nothing -/

/-- A save is all or nothing: if it raises, then everything is as it was, and if it goes
through, then the whole text is under the target and everything else is as it was. -/
def AllOrNothing (d : Document) (files : Directory.Entries) (place : Location) : Prop :=
  match d.saveTo files place with
  | (.error _, after, _) => SameBut [] files after
  | (.ok _, after, _) => ∃ l t parent, d.HasLayout l ∧ Json.write l d.value = some t ∧
      Directory.resolve files place = .ok (.entry parent place.name) ∧
      itemAt (targetRow parent place) after =
        some (.file (Text.Utf8.encode (t ++ "\n").toList)) ∧
      SameBut [targetRow parent place] files after

theorem sameBut_nil_iff {row : List (List Char)} {root root' : Directory.Entries}
    (h : SameBut [row] root root') :
    SameBut [] root root' ↔ itemAt row root' = itemAt row root := by
  constructor
  · intro h'
    exact h' row (List.not_mem_nil)
  · intro hrow names _
    by_cases hn : names = row
    · rw [hn, hrow]
    · exact h names (by simpa using hn)

/-- A save that writes aside is all or nothing if that leaves no trace. -/
theorem allOrNothing_of_setsAside (h : d.SetsAside files place text parent) :
    d.AllOrNothing files place ↔ itemAt (spareRow parent place) files =
      if Blocked files place parent then some (.file (Text.Utf8.encode text.toList))
      else none := by
  by_cases hb : Blocked files place parent
  · obtain ⟨f, after, hsave, hitem, hsame⟩ := saveTo_of_blocked h hb
    rw [AllOrNothing, hsave, if_pos hb]
    show SameBut [] files after ↔ _
    rw [sameBut_nil_iff hsame, hitem, eq_comm]
  · obtain ⟨after, log, hsave, htarget, hat, hgone, hsame⟩ := saveTo_of_clear h hb
    rw [AllOrNothing, hsave, if_neg hb]
    dsimp only
    constructor
    · rintro ⟨l, t, parent', -, -, htarget', -, hsame'⟩
      cases htarget.symm.trans htarget'
      rw [← hsame' _ ?_, hgone]
      rw [List.mem_singleton]
      exact (targetRow_ne_spareRow parent place).symm
    · intro hspare
      obtain ⟨l, t, hl, ht, rfl⟩ := hasLayout_of_fileContent h.content
      refine ⟨l, t, parent, hl, ht, htarget, hat, fun names hn => ?_⟩
      by_cases hrow : names = spareRow parent place
      · rw [hrow, hgone, hspare]
      · exact hsame names (by simpa [hrow] using hn)

/-- **A save is all or nothing but for the name that is written aside.**  It is refused,
and nothing has changed, unless a text can be written aside.  If the target is a directory,
then the save raises and the text stays there; otherwise the save goes through, and
nothing is left there.  So it is all or nothing exactly if nothing was under that name to
begin with, or, where the save is stuck, the very same text.  As strings hold characters
only, and no surrogate without its partner, every text that is saved has a UTF-8 form. -/
theorem allOrNothing_iff (d : Document) (files : Directory.Entries) (place : Location) :
    ((∀ text parent, ¬d.SetsAside files place text parent) →
        ∃ e, d.saveTo files place = (.error e, files, [])) ∧
      (∀ text parent, d.SetsAside files place text parent → Blocked files place parent →
        ∃ f after, d.saveTo files place =
            (.error (.move f (place.addEnding temporaryEnding) place), after, []) ∧
          itemAt (spareRow parent place) after =
            some (.file (Text.Utf8.encode text.toList)) ∧
          SameBut [spareRow parent place] files after) ∧
      (∀ text parent, d.SetsAside files place text parent → ¬Blocked files place parent →
        ∃ l t after log, d.HasLayout l ∧ Json.write l d.value = some t ∧ text = t ++ "\n" ∧
          d.saveTo files place = (.ok (), after, log) ∧
          Directory.resolve files place = .ok (.entry parent place.name) ∧
          itemAt (targetRow parent place) after =
            some (.file (Text.Utf8.encode text.toList)) ∧
          itemAt (spareRow parent place) after = none ∧
          SameBut [spareRow parent place, targetRow parent place] files after) ∧
      (d.AllOrNothing files place ↔
        ∀ text parent, d.SetsAside files place text parent →
          itemAt (spareRow parent place) files =
            if Blocked files place parent then some (.file (Text.Utf8.encode text.toList))
            else none) := by
  refine ⟨saveTo_of_refused, fun text parent h hb => saveTo_of_blocked h hb,
    fun text parent h hb => ?_, ?_⟩
  · obtain ⟨after, log, hsave⟩ := saveTo_of_clear h hb
    obtain ⟨l, t, hl, ht, htext⟩ := hasLayout_of_fileContent h.content
    exact ⟨l, t, after, log, hl, ht, htext, hsave⟩
  · by_cases hw : ∃ text parent, d.SetsAside files place text parent
    · obtain ⟨text, parent, h⟩ := hw
      rw [allOrNothing_of_setsAside h]
      refine ⟨fun hspare text' parent' h' => ?_, fun hall => hall text parent h⟩
      obtain ⟨rfl, rfl⟩ := h.unique h'
      exact hspare
    · have hrefused : ∀ text parent, ¬d.SetsAside files place text parent := fun text parent h =>
        hw ⟨text, parent, h⟩
      obtain ⟨e, hsave⟩ := saveTo_of_refused hrefused
      refine iff_of_true ?_ fun text parent h => absurd h (hrefused text parent)
      rw [AllOrNothing, hsave]
      exact fun names _ => rfl

/-- A current directory with given entries. -/
def holding (entries : Directory.Entries) : Directory.Entries :=
  [([], .directory [([], .directory entries)])]

/-- A name in the current directory. -/
def nameX : Location := ⟨0, [['x']]⟩

/-- What is saved of the document with one member. -/
def loudText : String := "\x7b\n  \"a\": 1\n\x7d\n"

theorem fileContent_loud : loud.fileContent = .ok loudText := by
  have hmargin : loud.indent.margin =
      .ok (some fun depth => List.replicate (depth * 2) ' ') := by
    show Indent.margin (.spaces 2) = _
    rw [Indent.margin, if_neg (by decide), if_neg (by decide)]
    rfl
  have hlayout : loud.layout =
      .ok (.indented fun depth => List.replicate (depth * 2) ' ') := by
    rw [layout, hmargin]
  exact savedText_eq_ok_iff.2
    ⟨_, "\x7b\n  \"a\": 1\n\x7d", hlayout, by decide +kernel, rfl⟩

theorem setsAside_loud (entries : Directory.Entries)
    (h : itemAt (spareRow Directory.current nameX) (holding entries) ≠ some .directory) :
    loud.SetsAside (holding entries) nameX loudText Directory.current where
  content := fileContent_loud
  named := by decide
  resolved := rfl
  directory := ⟨entries, rfl⟩
  free := h

/-- In an empty directory the save is all or nothing, and it is made. -/
theorem allOrNothing_iff_free :
    loud.SetsAside (holding []) nameX loudText Directory.current ∧
      loud.AllOrNothing (holding []) nameX ∧
      ∃ after log, loud.saveTo (holding []) nameX = (.ok (), after, log) := by
  have haside : loud.SetsAside (holding []) nameX loudText Directory.current :=
    setsAside_loud [] (by decide)
  have hclear : ¬Blocked (holding []) nameX Directory.current := by decide
  obtain ⟨-, -, hmade, hall⟩ := allOrNothing_iff loud (holding []) nameX
  refine ⟨haside, hall.2 fun text parent h => ?_, ?_⟩
  · obtain ⟨rfl, rfl⟩ := haside.unique h
    rw [if_neg hclear]
    rfl
  · obtain ⟨l, t, after, log, -, -, -, hsave, -⟩ := hmade _ _ haside hclear
    exact ⟨after, log, hsave⟩

/-- **A trace is left.**  If the target is a directory, then the save raises, and yet there
is a file that was not there before; and a file that has the name that is written aside is
gone after a save that goes through. -/
theorem trace_left :
    loud.Reachable ∧
      (∃ f after, loud.saveTo (holding [(['x'], .directory [])]) nameX =
          (.error (.move f (nameX.addEnding temporaryEnding) nameX), after, []) ∧
        itemAt (spareRow Directory.current nameX) (holding [(['x'], .directory [])]) = none ∧
        itemAt (spareRow Directory.current nameX) after =
          some (.file (Text.Utf8.encode loudText.toList))) ∧
      (∃ after log, loud.saveTo (holding [("x.tmp".toList, .file [])]) nameX =
          (.ok (), after, log) ∧
        itemAt (spareRow Directory.current nameX) (holding [("x.tmp".toList, .file [])]) =
          some (.file []) ∧
        itemAt (spareRow Directory.current nameX) after = none) ∧
      ¬loud.AllOrNothing (holding [(['x'], .directory [])]) nameX ∧
      ¬loud.AllOrNothing (holding [("x.tmp".toList, .file [])]) nameX := by
  have hloud : Document.ofCandidate .default ⟨none, none, some (.spaces 2)⟩
      (.json (.object () [("a", .int 1)])) = .ok loud := rfl
  have hstuck := setsAside_loud [(['x'], .directory [])] (by decide)
  have hmade := setsAside_loud [("x.tmp".toList, .file [])] (by decide)
  have hblocked : Blocked (holding [(['x'], .directory [])]) nameX Directory.current := by
    decide
  have hclear : ¬Blocked (holding [("x.tmp".toList, .file [])]) nameX Directory.current := by
    decide
  obtain ⟨f, after, hsave, hitem, -⟩ := saveTo_of_blocked hstuck hblocked
  obtain ⟨after', log, hsave', -, -, hgone, -⟩ := saveTo_of_clear hmade hclear
  refine ⟨.ofCandidate trivial hloud, ⟨f, after, hsave, rfl, hitem⟩,
    ⟨after', log, hsave', rfl, hgone⟩, fun h => ?_, fun h => ?_⟩
  · rw [allOrNothing_of_setsAside hstuck, if_pos hblocked] at h
    cases h
  · rw [allOrNothing_of_setsAside hmade, if_neg hclear] at h
    cases h

end JsonPaths.Document
