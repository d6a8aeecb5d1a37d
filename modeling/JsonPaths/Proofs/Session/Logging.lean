/-
JsonPaths/Proofs/Session/Logging.lean

What a session prints.

A command either configures logging or leaves the logger and the consoles alone
(`leavesLogging_of_run`).  A call that configures logging is refused and changes nothing, or it
sets the level and leaves one console (`step_logging`).  Step by step this keeps `Configured`,
which tells the logger and the consoles by the answers that were given so far, and what has
been printed by the records that counted.  The main result is `printed_once`.
-/
import Mathlib.Data.List.TakeWhile
import JsonPaths.Session
import JsonPaths.Proofs.Except
import JsonPaths.Proofs.Session.Records

namespace JsonPaths

namespace Session

/-! ### Commands that leave logging alone -/

/-- What a command comes to has the logger and the consoles of the session, is no logger,
and its records are such as operations issue. -/
structure LeavesLogging (s : Session) (o : Except Error Reply × Session × List Record) :
    Prop where
  logLevel : o.2.1.logLevel = s.logLevel
  consoles : o.2.1.consoles = s.consoles
  reply : ∀ level, o.1 ≠ .ok (.logger level)
  issued : ∀ r ∈ o.2.2, r.Issued

theorem leavesLogging_adopt (s : Session) (name : String) (d : Except Error Document)
    {log : List Record} (h : ∀ r ∈ log, r.Issued) :
    s.LeavesLogging ((s.adopt name d).1, (s.adopt name d).2, log) := by
  cases d with
  | error e => exact ⟨rfl, rfl, nofun, h⟩
  | ok d => exact ⟨rfl, rfl, nofun, h⟩

theorem map_ne_logger {α : Type} {reply : α → Reply} (h : ∀ a level, reply a ≠ .logger level)
    (r : Except Error α) (level : Json) : r.map reply ≠ .ok (.logger level) := by
  intro hr
  obtain ⟨a, -, ha⟩ := Except.map_eq_ok.1 hr
  exact h a level ha.symm

theorem leavesLogging_onDocument {α : Type} (s : Session) (name : String)
    {reply : α → Reply} {operation : Document → Outcome α}
    (hreply : ∀ a level, reply a ≠ .logger level)
    (h : ∀ d, ∀ r ∈ (operation d).log, r.Issued) :
    s.LeavesLogging (s.onDocument name reply operation) := by
  unfold onDocument
  split
  · exact ⟨rfl, rfl, nofun, nofun⟩
  · next d _ => exact ⟨rfl, rfl, map_ne_logger hreply _, h d⟩

theorem issued_withValue {α : Type} {value : Outline}
    {operation : Document → Candidate → Outcome α}
    (h : ∀ d c, ∀ r ∈ (operation d c).log, r.Issued) (d : Document) :
    ∀ r ∈ (withValue value operation d).log, r.Issued := by
  unfold withValue
  split
  · exact nofun
  · exact h d _

theorem leavesLogging_storeFiles (s : Session) (file : Location)
    (files : Except StorageFault Directory.Entries) :
    s.LeavesLogging ((s.storeFiles file files).1, (s.storeFiles file files).2, []) := by
  cases files with
  | error f => exact ⟨rfl, rfl, nofun, nofun⟩
  | ok files => exact ⟨rfl, rfl, nofun, nofun⟩

theorem leavesLogging_of_run (s : Session) (name : String) {c : Command}
    (h : ∀ level, c ≠ .logging level) : s.LeavesLogging (s.run name c) := by
  cases c with
  | create value options => exact leavesLogging_adopt s name _ nofun
  | fromText text options => exact leavesLogging_adopt s name _ nofun
  | load file options =>
    exact leavesLogging_adopt s name _ (Document.issued_ofFile s.config options s.files file)
  | query path =>
    exact leavesLogging_onDocument s name nofun fun d => d.issued_query path
  | set path value =>
    exact leavesLogging_onDocument s name nofun
      (issued_withValue fun d c => d.issued_setPath path c)
  | paths => exact leavesLogging_onDocument s name nofun fun _ => nofun
  | find value =>
    exact leavesLogging_onDocument s name nofun (issued_withValue Document.issued_find)
  | save => exact leavesLogging_onDocument s name nofun fun _ => nofun
  | saveTo file =>
    unfold run
    dsimp only
    split
    · exact ⟨rfl, rfl, nofun, nofun⟩
    · next d _ =>
      exact ⟨rfl, rfl, map_ne_logger nofun _, d.issued_saveTo s.files file⟩
  | describe => exact leavesLogging_onDocument s name nofun fun _ => nofun
  | flags options => exact leavesLogging_onDocument s name nofun fun _ => nofun
  | configure change => exact ⟨rfl, rfl, map_ne_logger nofun _, nofun⟩
  | logging level => exact absurd rfl (h level)
  | write file bytes => exact leavesLogging_storeFiles s file _
  | read file => exact ⟨rfl, rfl, map_ne_logger nofun _, nofun⟩
  | makeDirectory file => exact leavesLogging_storeFiles s file _
  | list => exact ⟨rfl, rfl, nofun, nofun⟩

/-! ### Commands that configure logging -/

/-- The session after a call that configures logging: a level that does not exist is refused,
and nothing changes. -/
theorem run_logging (s : Session) (name : String) (level : Option Log.LevelRequest) :
    s.run name (.logging level) =
      match (level.getD s.config.logLevel).resolve with
      | .ok n => (.ok (.logger (shownLevel (level.getD s.config.logLevel) n)),
          { s with logLevel := n }.attachConsole, [])
      | .error f => (.error (.level f), s, []) := by
  simp only [run, configureLogging]
  cases (level.getD s.config.logLevel).resolve with
  | ok n => rfl
  | error f => rfl

theorem logLevel_attachConsole (s : Session) : s.attachConsole.logLevel = s.logLevel := by
  unfold attachConsole
  split <;> rfl

/-- Attaching leaves a console, and no second one. -/
theorem consoles_attachConsole (s : Session) :
    s.attachConsole.consoles = if s.consoles = [] then [.plain] else s.consoles := by
  unfold attachConsole
  cases h : s.consoles with
  | nil => simp
  | cons c cs => simp [h]

end Session

/-- The level of the logger that a call returned, if it returned one. -/
def Answer.level? (a : Answer) : Option Int :=
  match a.result with
  | .ok (.logger (.int n)) => some n
  | .ok (.logger (.bool b)) => some b.toInt
  | _ => none

theorem Answer.level?_of_ne {a : Answer} (h : ∀ level, a.result ≠ .ok (.logger level)) :
    a.level? = none := by
  unfold Answer.level?
  split
  · next n e => exact absurd e (h _)
  · next b e => exact absurd e (h _)
  · rfl

theorem Answer.level?_of_resolve {a : Answer} {request : Log.LevelRequest} {n : Int}
    (hn : request.resolve = .ok n)
    (h : a.result = .ok (.logger (Session.shownLevel request n))) : a.level? = some n := by
  rw [Answer.level?, h]
  cases request with
  | truth b =>
    obtain rfl := Except.ok.inj hn
    rfl
  | _ => rfl

namespace Session

/-! ### Steps -/

theorem lines_of_attached {s : Session} {log : List Record} (hs : s.consoles = [.plain])
    (h : ∀ r ∈ log, r.Issued) : s.lines log = log.map Record.shown := by
  rw [lines, hs, ← List.flatMap_singleton' (log.map _), List.flatMap_map]
  refine List.flatMap_congr fun r hr => ?_
  have hlevel : ¬r.level < Log.Console.plain.level := Int.not_lt.2 (h r hr).level
  simp [Log.Console.print, hlevel, Record.shown]

theorem lines_of_none {s : Session} {log : List Record} (hs : s.consoles = []) :
    s.lines log = [] := by
  simp [lines, hs]

/-- What counts is what passes the logger as it was before the command. -/
theorem log_step (s : Session) (name : String) (c : Command) :
    (s.step name c).2.log = (s.run name c).2.2.filter fun r => Log.passes s.logLevel r.level := by
  show (s.run name c).2.2.filter (fun r => Log.passes (s.run name c).2.1.logLevel r.level) = _
  by_cases hc : ∃ level, c = .logging level
  · -- a call that sets the level issues nothing
    obtain ⟨level, rfl⟩ := hc
    have hissued : (s.run name (.logging level)).2.2 = [] := by
      rw [run_logging]
      split <;> rfl
    rw [hissued]
    rfl
  · have hleaves := s.leavesLogging_of_run name fun level h => hc ⟨level, h⟩
    rw [hleaves.logLevel]

theorem console_step (s : Session) (name : String) (c : Command) :
    (s.step name c).2.console = (s.step name c).1.lines (s.step name c).2.log := rfl

/-- A call that configures logging issues nothing.  It returns a logger of the level that was
asked for, or is refused and changes nothing. -/
theorem step_logging (s : Session) (name : String) (level : Option Log.LevelRequest) :
    (s.step name (.logging level)).2.log = [] ∧
      ((∃ n, (level.getD s.config.logLevel).resolve = .ok n ∧
          (s.step name (.logging level)).2.level? = some n ∧
          (s.step name (.logging level)).1 = { s with logLevel := n }.attachConsole) ∨
        ∃ f, (level.getD s.config.logLevel).resolve = .error f ∧
          (s.step name (.logging level)).2.result = .error (.level f) ∧
          (s.step name (.logging level)).1 = s) := by
  have hrun := s.run_logging name level
  have hlog := s.log_step name (.logging level)
  cases hr : (level.getD s.config.logLevel).resolve with
  | ok n =>
    rw [hr] at hrun
    rw [hrun] at hlog
    have hresult := congrArg Prod.fst hrun
    exact ⟨hlog, .inl ⟨n, rfl, Answer.level?_of_resolve hr hresult,
      congrArg (fun o => o.2.1) hrun⟩⟩
  | error f =>
    rw [hr] at hrun
    rw [hrun] at hlog
    exact ⟨hlog, .inr ⟨f, rfl, congrArg Prod.fst hrun, congrArg (fun o => o.2.1) hrun⟩⟩

/-- A step returns no logger and leaves the logger and the consoles alone, or it returns one
of the level that is set, and attaches a console unless there is one. -/
theorem step_cases (s : Session) (name : String) (c : Command) :
    ((s.step name c).2.level? = none ∧ (s.step name c).1.logLevel = s.logLevel ∧
        (s.step name c).1.consoles = s.consoles) ∨
      ∃ n, (s.step name c).2.level? = some n ∧ (s.step name c).1.logLevel = n ∧
        (s.step name c).1.consoles = if s.consoles = [] then [.plain] else s.consoles := by
  by_cases hc : ∃ level, c = .logging level
  · obtain ⟨level, rfl⟩ := hc
    rcases (s.step_logging name level).2 with ⟨n, -, hn, hafter⟩ | ⟨f, -, hresult, hafter⟩
    · refine .inr ⟨n, hn, ?_, ?_⟩
      · rw [hafter, logLevel_attachConsole]
      · rw [hafter, consoles_attachConsole]
    · refine .inl ⟨Answer.level?_of_ne ?_, ?_, ?_⟩
      · intro level' h
        rw [hresult] at h
        cases h
      · rw [hafter]
      · rw [hafter]
  · have hleaves := s.leavesLogging_of_run name fun level h => hc ⟨level, h⟩
    exact .inl ⟨Answer.level?_of_ne hleaves.reply, hleaves.logLevel, hleaves.consoles⟩

/-- All records that commands issue are such as operations issue. -/
theorem issued_run (s : Session) (name : String) (c : Command) :
    ∀ r ∈ (s.run name c).2.2, r.Issued := by
  by_cases hc : ∃ level, c = .logging level
  · obtain ⟨level, rfl⟩ := hc
    rw [run_logging]
    split <;> exact nofun
  · exact (s.leavesLogging_of_run name fun level h => hc ⟨level, h⟩).issued

theorem issued_log (s : Session) (name : String) (c : Command) :
    ∀ r ∈ (s.step name c).2.log, r.Issued := by
  intro r hr
  exact s.issued_run name c r (List.mem_of_mem_filter hr)

/-! ### Runs -/

/-- The answers from the first one on that returned a logger. -/
def sinceConfigured (answers : List Answer) : List Answer :=
  answers.dropWhile fun a => a.level?.isNone

theorem sinceConfigured_ne_nil {answers : List Answer} :
    sinceConfigured answers ≠ [] ↔ ∃ a ∈ answers, a.level? ≠ none := by
  rw [Ne, sinceConfigured, List.dropWhile_eq_nil_iff]
  simp

theorem sinceConfigured_concat (answers : List Answer) (a : Answer) :
    sinceConfigured (answers ++ [a]) =
      if sinceConfigured answers = [] ∧ a.level? = none then []
      else sinceConfigured answers ++ [a] := by
  rw [sinceConfigured, List.dropWhile_append]
  show (if (sinceConfigured answers).isEmpty = true then _ else _) = _
  by_cases hs : sinceConfigured answers = []
  · cases h : a.level? with
    | none => simp [hs, h]
    | some n => simp [hs, h]
  · simp only [List.isEmpty_iff, hs, false_and, if_false]
    rfl

/-- The logger and the consoles of a session, by the answers that were given on the way to
it: there is a console if a call returned a logger, the level is that of the last such call,
and the records that have counted since the first such call are printed, each once. -/
structure Configured (s : Session) (answers : List Answer) : Prop where
  consoles : s.consoles = if sinceConfigured answers = [] then [] else [.plain]
  level : s.logLevel = (answers.filterMap Answer.level?).getLastD 0
  printed : answers.flatMap Answer.console =
    ((sinceConfigured answers).flatMap Answer.log).map Record.shown

theorem configured_initial : Configured initial [] :=
  ⟨rfl, rfl, rfl⟩

/-- A session with a console prints each record once, and one without prints none. -/
theorem lines_eq {s : Session} {answers : List Answer} {log : List Record}
    (h : s.consoles = if sinceConfigured answers = [] then [] else [.plain])
    (hlog : ∀ r ∈ log, r.Issued) :
    s.lines log = if sinceConfigured answers = [] then [] else log.map Record.shown := by
  by_cases hs : sinceConfigured answers = []
  · rw [if_pos hs]
    exact lines_of_none (h.trans (if_pos hs))
  · rw [if_neg hs]
    exact lines_of_attached (h.trans (if_neg hs)) hlog

/-- **A step keeps what the answers tell of the logger and the consoles.** -/
theorem Configured.step {s : Session} {answers : List Answer} (h : s.Configured answers)
    (name : String) (c : Command) :
    (s.step name c).1.Configured (answers ++ [(s.step name c).2]) := by
  have hsince := sinceConfigured_concat answers (s.step name c).2
  have hconsoles : (s.step name c).1.consoles =
      if sinceConfigured (answers ++ [(s.step name c).2]) = [] then [] else [.plain] := by
    rcases s.step_cases name c with ⟨hnone, -, hc⟩ | ⟨n, hn, -, hc⟩
    · rw [hc, h.consoles, hsince, hnone]
      by_cases hs : sinceConfigured answers = [] <;> simp [hs]
    · rw [hc, h.consoles, hsince, hn]
      by_cases hs : sinceConfigured answers = [] <;> simp [hs]
  constructor
  · exact hconsoles
  · -- a call that returned a logger is the last one now
    rw [List.filterMap_append]
    rcases s.step_cases name c with ⟨hnone, hl, -⟩ | ⟨n, hn, hl, -⟩
    · rw [hl, h.level]
      simp [hnone]
    · rw [hl]
      simp [hn]
  · -- an answer counts from the first logger on, and so does the console
    rw [List.flatMap_append, List.flatMap_singleton, h.printed, console_step,
      lines_eq hconsoles (s.issued_log name c), hsince]
    split
    · next hs => simp [hs.1]
    · simp

theorem Configured.runAll {s : Session} {answers : List Answer} (h : s.Configured answers)
    (commands : List (String × Command)) :
    (s.runAll commands).1.Configured (answers ++ (s.runAll commands).2) := by
  induction commands generalizing s answers with
  | nil =>
    show s.Configured (answers ++ [])
    rwa [List.append_nil]
  | cons c commands ih =>
    have hstep := ih (h.step c.1 c.2)
    rwa [List.append_assoc] at hstep

/-! ### The main result -/

/-- What is printed in a session, at a point to which it has come with the given answers.
`Answer.level?` tells the calls that configured logging: such a call returns the logger, and
one that fails does not.

There is at most one console, and there is one exactly if a call configured logging.  The
level is that of the last such call.  What has been printed are the records that counted since
the first such call, one line each and in order.  The next call to configure logging returns a
logger of the level that is asked for, by itself or as the default, or is refused and changes
nothing; no other call returns a logger.  Of the records that the next command issues those
that pass the logger count, and with a console each of them is printed, on the line that it
has at any time and place that can be shown.  What is printed is what consoles print: the
bare text that goes to the stream of errors while no console is attached is not part of it. -/
structure LogsOnce (s : Session) (answers : List Answer) : Prop where
  single : s.consoles.length ≤ 1
  attached : s.consoles ≠ [] ↔ ∃ a ∈ answers, a.level? ≠ none
  level : s.logLevel = (answers.filterMap Answer.level?).getLastD 0
  printed : answers.flatMap Answer.console =
    ((sinceConfigured answers).flatMap Answer.log).map Record.shown
  configures : ∀ name level,
    (∃ n, (level.getD s.config.logLevel).resolve = .ok n ∧
        (s.step name (.logging level)).2.level? = some n) ∨
      ∃ f, (level.getD s.config.logLevel).resolve = .error f ∧
        (s.step name (.logging level)).2.result = .error (.level f) ∧
        (s.step name (.logging level)).1 = s
  returns : ∀ name c, (s.step name c).2.level? ≠ none → ∃ level, c = .logging level
  counts : ∀ name c,
    (s.step name c).2.log = (s.run name c).2.2.filter fun r => Log.passes s.logLevel r.level
  prints : ∀ name c, (s.step name c).2.console =
    if s.consoles = [] then [] else (s.step name c).2.log.map Record.shown
  shows : ∀ name c, ∀ r ∈ (s.run name c).2.2, ∃ template ∈ Record.templates, ∃ args,
    ∀ created clock file line number, created.clock? = some clock →
      Text.intText? line = some number →
        (r.event template args created file line).line? =
          some (.concat [.inStyle clock (some Log.asideStyle), .plain [' '], r.shown,
            .plain [' '], Log.placePart file.toList number])

theorem console_step_eq {s : Session} {answers : List Answer} (h : s.Configured answers)
    (name : String) (c : Command) : (s.step name c).2.console =
      if s.consoles = [] then [] else (s.step name c).2.log.map Record.shown := by
  by_cases hc : ∃ level, c = .logging level
  · -- the call may attach the first console, but there is nothing to print
    obtain ⟨level, rfl⟩ := hc
    rw [console_step, (s.step_logging name level).1]
    split <;> rfl
  · have hleaves := s.leavesLogging_of_run name fun level h => hc ⟨level, h⟩
    have hconsoles : (s.step name c).1.consoles = s.consoles := hleaves.consoles
    rw [console_step, lines_eq (hconsoles.trans h.consoles) (s.issued_log name c), h.consoles]
    by_cases hs : sinceConfigured answers = [] <;> simp [hs]

/-- **Each record is printed once, however logging is configured.**  Whatever commands are
run, valid calls to configure logging and calls that fail among them, at the point where they
lead to what is said of `LogsOnce` holds. -/
theorem printed_once (commands : List (String × Command)) :
    LogsOnce (initial.runAll commands).1 (initial.runAll commands).2 := by
  have h : (initial.runAll commands).1.Configured (initial.runAll commands).2 :=
    configured_initial.runAll commands
  constructor
  case single =>
    rw [h.consoles]
    split <;> decide
  case attached =>
    rw [h.consoles, ← sinceConfigured_ne_nil]
    by_cases hs : sinceConfigured (initial.runAll commands).2 = [] <;> simp [hs]
  case level => exact h.level
  case printed => exact h.printed
  case configures =>
    intro name level
    rcases (step_logging _ name level).2 with ⟨n, hr, hn, -⟩ | hf
    · exact .inl ⟨n, hr, hn⟩
    · exact .inr hf
  case returns =>
    intro name c hne
    by_contra hc
    exact hne (Answer.level?_of_ne (leavesLogging_of_run _ name fun level h => hc ⟨level, h⟩).reply)
  case counts => exact log_step _
  case prints => exact console_step_eq h
  case shows =>
    intro name c r hr
    obtain ⟨template, ht, args, hfills⟩ := (issued_run _ name c r hr).fills
    refine ⟨template, ht, args, ?_⟩
    intro created clock file line number hc hn
    exact Record.line?_of_fills hfills hc hn file

/-- A level that does not exist, the default level, and a level of its own: one console. -/
example : (initial.runAll [("d", .logging (some (.named "LOUD"))), ("d", .logging none),
    ("d", .logging (some (.numbered 10)))]).1.consoles = [.plain] := rfl

end Session

end JsonPaths
