/-
JsonPaths/Proofs/Session/Records.lean

The records that operations on documents issue.

Every record is issued with a template and its arguments, and these fit: its message is the
template filled in (`Record.Issued`).  So the line of a record, with whatever time and place can be
shown, is always there, and it shows the record between the two (`Record.line?_of_fills`).
-/
import JsonPaths.Document.Files
import JsonPaths.Proofs.Log.Console
import JsonPaths.Proofs.Log.Template

namespace JsonPaths

/-! ### Records -/

namespace Record

/-- A record as a console shows it, time and place left out. -/
def shown (r : Record) : Styled := Log.levelAndMessage r.level r.message.toList r.subject

/-- `r.Fills template args`: the message of the record is the template with the arguments
filled in. -/
def Fills (r : Record) (template : String) (args : List String) : Prop :=
  Log.Template.message template.toList args = some r.message.toList

/-- A record as an event at a time and a place. -/
def event (r : Record) (template : String) (args : List String) (created : Log.Moment)
    (file : String) (line : Int) : Log.Event :=
  ⟨template, args, r.level, file, line, created, r.subject⟩

/-- The line of a record shows it between time and place. -/
theorem line?_of_fills {r : Record} {template : String} {args : List String}
    {created : Log.Moment} {clock number : List Char} {line : Int} (h : r.Fills template args)
    (hc : created.clock? = some clock) (hn : Text.intText? line = some number) (file : String) :
    (r.event template args created file line).line? =
      some (.concat [.inStyle clock (some Log.asideStyle), .plain [' '], r.shown, .plain [' '],
        Log.placePart file.toList number]) := by
  rw [Log.Event.line?, Log.lineAs?_eq (e := r.event template args created file line) hc h hn]
  exact congrArg some (Log.concat_lineParts ..)

/-- The templates of the records that operations issue. -/
def templates : List String :=
  ["%s %s failed: %s", "set %s", "loaded document from %s", "saved document to %s"]

/-- A record as operations issue it: its level is not negative, and its message is one of
the templates with arguments that fit. -/
structure Issued (r : Record) : Prop where
  level : 0 ≤ r.level
  fills : ∃ template ∈ templates, ∃ args, r.Fills template args

theorem fills_failed (level : Int) (operation subject reason : String)
    (about : Option String) :
    Fills ⟨level, s!"{operation} {subject} failed: {reason}", about⟩ "%s %s failed: %s"
      [operation, subject, reason] := by
  have hparts : ∀ t ∈ [[], [' '], " failed: ".toList], '%' ∉ t := by decide
  have hmessage := Log.Template.message_inserting
    [([], operation), ([' '], subject), (" failed: ".toList, reason)]
    (List.cons_ne_nil _ _) (by simp)
  have hspace : " ".toList = [' '] := by decide
  show Log.Template.message (Log.Template.inserting
    [([], operation), ([' '], subject), (" failed: ".toList, reason)]) _ = _
  refine hmessage.trans (congrArg some ?_)
  simp [toString, hspace]

/-- The message of a debug record is a text and an argument behind it. -/
theorem fills_argument {lead template : String} (h : '%' ∉ lead.toList)
    (ht : template.toList = lead.toList ++ ['%', 's']) (level : Int) (argument : String)
    (about : Option String) :
    Fills ⟨level, lead ++ argument, about⟩ template [argument] := by
  have hmessage := Log.Template.message_inserting [(lead.toList, argument)]
    (List.cons_ne_nil _ _) (by simpa using h)
  rw [Fills, ht]
  refine (Eq.trans ?_ hmessage).trans (congrArg some ?_)
  · simp [Log.Template.inserting]
  · simp

theorem issued_failed (operation subject reason : String) :
    Issued ⟨Log.warning, s!"{operation} {subject} failed: {reason}", some subject⟩ := by
  refine ⟨?_, "%s %s failed: %s", by simp [templates], [operation, subject, reason],
    fills_failed ..⟩
  show 0 ≤ Log.warning
  decide

theorem issued_argument (lead template : String) (h : '%' ∉ lead.toList)
    (ht : template.toList = lead.toList ++ ['%', 's']) (hmem : template ∈ templates)
    (argument : String) : Issued ⟨Log.debug, lead ++ argument, none⟩ := by
  refine ⟨?_, template, hmem, [argument], fills_argument h ht ..⟩
  show 0 ≤ Log.debug
  decide

end Record

/-! ### Operations on documents -/

namespace Document

theorem issued_settle {α : Type} {d : Document} {operation subject : String} {fallback : α}
    {e : Error} : ∀ r ∈ (d.settle operation subject fallback e).log, r.Issued := by
  intro r hr
  cases e with
  | setback s =>
    simp only [settle] at hr
    split at hr
    · cases hr
    · obtain rfl := List.mem_singleton.1 hr
      exact Record.issued_failed operation subject s.message
  | _ => cases hr

theorem issued_query (d : Document) (path : Json) : ∀ r ∈ (d.query path).log, r.Issued := by
  unfold query
  dsimp only
  split
  · exact nofun
  · exact issued_settle

theorem issued_setPath (d : Document) (path : Json) (c : Candidate) :
    ∀ r ∈ (d.setPath path c).log, r.Issued := by
  unfold setPath
  split
  · unfold setJson
    split
    · intro r hr
      obtain rfl := List.mem_singleton.1 hr
      exact Record.issued_argument "set " "set %s" (by decide) (by decide)
        (by simp [Record.templates]) (pathText path)
    · exact issued_settle
  · exact nofun

theorem issued_find (d : Document) (c : Candidate) : ∀ r ∈ (d.find c).log, r.Issued := by
  unfold find
  split
  · unfold findJson
    split
    · split
      · exact nofun
      · exact issued_settle
    · exact nofun
  · exact nofun

theorem issued_ofFile (config : Config) (options : Options) (files : Directory.Entries)
    (place : Location) : ∀ r ∈ (ofFile config options files place).2, r.Issued := by
  unfold ofFile
  split
  · exact nofun
  · intro r hr
    obtain rfl := List.mem_singleton.1 hr
    exact Record.issued_argument "loaded document from " "loaded document from %s"
      (by decide) (by decide) (by simp [Record.templates]) (String.ofList place.text)

theorem issued_saveTo (d : Document) (files : Directory.Entries) (place : Location) :
    ∀ r ∈ (d.saveTo files place).2.2, r.Issued := by
  unfold saveTo
  split
  · exact nofun
  split
  · exact nofun
  dsimp only
  split
  · exact nofun
  split
  · exact nofun
  · intro r hr
    obtain rfl := List.mem_singleton.1 hr
    exact Record.issued_argument "saved document to " "saved document to %s"
      (by decide) (by decide) (by simp [Record.templates]) (String.ofList place.text)

end Document

end JsonPaths
