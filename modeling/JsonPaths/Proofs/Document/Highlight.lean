/-
JsonPaths/Proofs/Document/Highlight.lean

Where the subject of a warning is highlighted.

A warning names its operation, its subject and the reason, and the subject is then searched
in the whole message.  It is there, behind the name of the operation, so there is one
highlight, and it starts there or further to the front.  `Distinct` says when it is the
subject that is highlighted: the subject loses no character, and does not begin in what the
warning says before it.  The text of a searched value is always so (`distinct_find`), and so
is a path that starts with a dot and loses no character (`distinct_of_dot`); a path such as
`e` is not, and part of the name of the operation is highlighted for it (`name_marked`).
-/
import JsonPaths.Proofs.Document.Flags
import JsonPaths.Proofs.Json.LineEnds
import JsonPaths.Proofs.Log.Console

namespace JsonPaths

open Styled (clean isKept FirstAt)

/-! ### What the texts of values begin with -/

namespace Json

/-- Values do not begin with a character of the name of the search, except for true. -/
theorem head_not_mem_name {l : Layout} {depth : Nat} {v : Json} {s : List Char}
    (hs : writeAt l depth v = some s) (h : v ≠ .bool true) :
    ∃ c t, s = c :: t ∧ c ∉ "get_paths_to_value ".toList := by
  have hdigit : ∀ d : Char, d.isDigit = true → d ∉ "get_paths_to_value ".toList := by
    have hname : "get_paths_to_value ".toList.all (fun c => !c.isDigit) = true := by decide
    intro d hd hmem
    have hd' := List.all_eq_true.1 hname d hmem
    rw [hd] at hd'
    cases hd'
  have hsign : ∀ (negative : Bool) {d : Char} (t : List Char), d.isDigit = true →
      ∃ c u, signText negative ++ d :: t = c :: u ∧ c ∉ "get_paths_to_value ".toList := by
    intro negative d t hd
    cases negative with
    | true => exact ⟨'-', d :: t, rfl, by decide⟩
    | false => exact ⟨d, t, rfl, hdigit d hd⟩
  cases v with
  | null =>
    rw [writeAt, Option.some.injEq] at hs
    exact ⟨'n', _, hs.symm, by decide⟩
  | bool b =>
    cases b with
    | true => exact absurd rfl h -- its `t` is in the name
    | false =>
      rw [writeAt, Option.some.injEq] at hs
      exact ⟨'f', _, hs.symm, by decide⟩
  | int n =>
    rw [writeAt] at hs
    obtain ⟨-, rfl⟩ := Text.intText?_eq_some_iff.1 hs
    obtain ⟨d, t, hd⟩ :=
      List.exists_cons_of_ne_nil (Nat.toDigits_ne_nil (n := n.natAbs) (b := 10))
    have hmem : d ∈ Nat.toDigits 10 n.natAbs := hd ▸ List.mem_cons_self
    rw [intChars_eq, hd]
    exact hsign _ t (Text.isDigit_of_mem_toDigits d hmem)
  | double x =>
    rw [writeAt, Option.some.injEq] at hs
    subst hs
    cases x with
    | nan => exact ⟨'N', _, rfl, by decide⟩
    | infinite negative => cases negative <;> exact ⟨_, _, rfl, by decide⟩
    | finite negative e f =>
      obtain ⟨d, t, hd, hd'⟩ := head_magnitudeText e f
      show ∃ c u, signText negative ++ Double.magnitudeText e f = c :: u ∧ _
      rw [hd]
      exact hsign negative t hd'
  | string s =>
    rw [writeAt, Option.some.injEq] at hs
    exact ⟨'"', _, hs.symm, by decide⟩
  | array m items =>
    cases items with
    | nil =>
      rw [writeAt, Option.some.injEq] at hs
      exact ⟨'[', _, hs.symm, by decide⟩
    | cons v vs =>
      obtain ⟨a, -, rfl⟩ := writeAt_array_eq_some_iff.1 hs
      exact ⟨'[', _, rfl, by decide⟩
  | object m ms =>
    cases ms with
    | nil =>
      rw [writeAt, Option.some.injEq] at hs
      exact ⟨'\x7b', _, hs.symm, by decide⟩
    | cons p ms =>
      obtain ⟨a, -, rfl⟩ := writeAt_object_eq_some_iff.1 hs
      exact ⟨'\x7b', _, rfl, by decide⟩

end Json

theorem isKept_of_clean {s : List Char} (h : Text.Clean s) : ∀ c ∈ s, isKept c = true := by
  intro c hc
  rcases h c hc with rfl | h
  · decide
  · simp only [isKept, Bool.not_eq_true', Bool.or_eq_false_iff, decide_eq_false_iff_not]
    omega

/-! ### Subjects -/

namespace Call

variable {c : Call} {s : Setback}

/-- What a warning says before its subject. -/
def lead (c : Call) : List Char := c.operation.toList ++ [' ']

/-- The stretch of a warning, as it is shown, that is its subject. -/
def subjectSpan (c : Call) : Span :=
  ⟨c.lead.length, c.lead.length + (clean c.subject.toList).length, Log.subjectStyle⟩

/-- The subject of a call is told from what a warning says before it: it loses no
character, and behind the name of the operation and a space it is not found before the
place where it stands. -/
structure Distinct (c : Call) : Prop where
  kept : ∀ ch ∈ c.subject.toList, isKept ch = true
  first : FirstAt c.subject.toList (c.lead ++ c.subject.toList) c.lead.length

/-- What a warning says behind its subject. -/
def trail (s : Setback) : List Char := " failed: ".toList ++ s.message.toList

theorem toList_failed (operation subject reason : String) :
    (s!"{operation} {subject} failed: {reason}").toList =
      (operation.toList ++ [' ']) ++
        (subject.toList ++ (" failed: ".toList ++ reason.toList)) := by
  have hspace : " ".toList = [' '] := by decide
  simp only [toString, String.toList_append, hspace, List.append_assoc]

theorem toList_message_warning (c : Call) (s : Setback) :
    (c.warning s).message.toList = c.lead ++ (c.subject.toList ++ trail s) :=
  toList_failed _ _ _

theorem operation_mem (c : Call) :
    c.operation ∈ ["query", "set_path", "paths", "get_paths_to_value", "flags"] := by
  cases c <;> simp [operation]

theorem isKept_of_mem_lead (c : Call) : ∀ ch ∈ c.lead, isKept ch = true := by
  have hall : ∀ op ∈ ["query", "set_path", "paths", "get_paths_to_value", "flags"],
      (op.toList ++ [' ']).all isKept = true := by decide
  exact List.all_eq_true.1 (hall c.operation c.operation_mem)

theorem dot_not_mem_lead (c : Call) : '.' ∉ c.lead := by
  have hall : ∀ op ∈ ["query", "set_path", "paths", "get_paths_to_value", "flags"],
      '.' ∉ op.toList ++ [' '] := by decide
  exact hall c.operation c.operation_mem

theorem lead_find (v : Candidate) : (find v).lead = "get_paths_to_value ".toList := by
  show "get_paths_to_value".toList ++ [' '] = _
  decide

/-- A path is told if it starts with a dot and loses no character. -/
theorem distinct_of_dot {r : List Char} (hdot : c.subject.toList = '.' :: r)
    (hk : ∀ ch ∈ c.subject.toList, isKept ch = true) : c.Distinct :=
  ⟨hk, hdot ▸ Styled.firstAt_of_head_not_mem c.dot_not_mem_lead⟩

/-- **The text of a searched value is always told.** -/
theorem distinct_find {v : Candidate} (hs : (find v).subject ≠ "") : (find v).Distinct := by
  cases hv : v.check with
  | error p =>
    rw [subject, hv] at hs
    exact absurd rfl hs
  | ok w =>
    have hfind : (find v).subject = (Json.write .spaced w).getD "" := by
      rw [subject, hv]
      rfl
    cases ht : Json.write .spaced w with
    | none =>
      rw [hfind, ht] at hs
      exact absurd rfl hs
    | some t =>
      have hw := Json.write_eq_some_iff.1 ht
      have hsubject : (find v).subject = t := by rw [hfind, ht, Option.getD_some]
      refine ⟨?_, ?_⟩
      · rw [hsubject]
        exact isKept_of_clean (Json.clean_of_writeAt Json.loose_spaced hw)
      · rw [hsubject, lead_find]
        by_cases htrue : w = .bool true
        · subst htrue
          rw [Json.writeAt, if_pos rfl, Option.some.injEq] at hw
          rw [← hw]
          exact Styled.occurrence?_eq_some_iff.1 (by decide)
        · obtain ⟨ch, u, hu, hch⟩ := Json.head_not_mem_name hw htrue
          rw [hu]
          exact Styled.firstAt_of_head_not_mem hch

/-! ### The highlight -/

/-- How a call that failed is highlighted in its warning, as it is shown.  The warning shows
the name of the operation, a space, the subject and the rest, each without the characters
that are dropped.  One span is highlighted.  It starts where the subject first occurs in the
whole message, at the latest where the subject stands, and is as long as the subject was, cut
off where the message ends.  It is the subject exactly if the subject is distinct, and the
subject of a search always is, like any that starts with a dot and keeps its characters. -/
structure Marked (c : Call) (s : Setback) (text : Styled) (m : Span) : Prop where
  chars : text.chars = c.lead ++ (clean c.subject.toList ++ clean (trail s))
  spans : text.spans = [m]
  start : FirstAt c.subject.toList (c.lead ++ (c.subject.toList ++ trail s)) m.start
  start_le : m.start ≤ c.lead.length
  stop : m.stop = min text.chars.length (m.start + c.subject.length)
  style : m.style = Log.subjectStyle
  covers : m = c.subjectSpan ↔ c.Distinct
  distinct : (∃ v, c = find v) ∨ (c.subject.toList.head? = some '.' ∧
    ∀ ch ∈ c.subject.toList, isKept ch = true) → c.Distinct

theorem clean_lead (c : Call) : clean c.lead = c.lead :=
  Styled.clean_eq_self c.isKept_of_mem_lead

/-- Something is shown behind the subject. -/
theorem length_clean_trail_pos (s : Setback) : 0 < (clean (trail s)).length := by
  have hspace : ' ' ∈ trail s := List.mem_append_left _ (by decide)
  exact List.length_pos_iff.2 (Styled.clean_ne_nil hspace (by decide))

/-- The span that is found is the subject exactly if the subject is distinct. -/
theorem found_eq_subjectSpan_iff {i n : Nat}
    (hfirst : FirstAt c.subject.toList (c.lead ++ (c.subject.toList ++ trail s)) i)
    (hn : c.lead.length + (clean c.subject.toList).length < n) :
    (⟨i, min n (i + c.subject.length), Log.subjectStyle⟩ : Span) = c.subjectSpan ↔
      c.Distinct := by
  rw [subjectSpan, Span.mk.injEq, ← String.length_toList]
  constructor
  · rintro ⟨rfl, hstop, -⟩
    -- the message goes on behind the subject, so the span was not cut off
    exact ⟨Styled.forall_isKept_of_length (by omega), Styled.firstAt_append_append.1 hfirst⟩
  · rintro ⟨hk, hdistinct⟩
    have hi := hfirst.unique (Styled.firstAt_append_append.2 hdistinct)
    have hself := Styled.clean_eq_self hk
    rw [hself] at hn ⊢
    subst hi
    exact ⟨rfl, Nat.min_eq_right (Nat.le_of_lt hn), rfl⟩

theorem marked_warning (c : Call) (s : Setback) (hs : c.subject ≠ "") :
    ∃ m, Marked c s
      (Log.messagePart (c.warning s).message.toList (c.warning s).subject) m := by
  have hmessage := toList_message_warning c s
  have hat : c.subject.toList <+: (c.lead ++ (c.subject.toList ++ trail s)).drop
      c.lead.length := by simp
  obtain ⟨i, hi, hfirst⟩ := Styled.exists_firstAt hat
  have hchars : clean (c.lead ++ (c.subject.toList ++ trail s)) =
      c.lead ++ (clean c.subject.toList ++ clean (trail s)) := by
    rw [Styled.clean_append, Styled.clean_append, clean_lead]
  have hlength := congrArg List.length hchars
  simp only [List.length_append] at hlength
  have hpos := length_clean_trail_pos s
  rw [hmessage]
  have hspans := Log.spans_messagePart hs hfirst (by omega)
  refine ⟨_, ⟨(Log.chars_messagePart _ _).trans hchars, hspans, hfirst, hi, ?_, rfl,
    found_eq_subjectSpan_iff hfirst (by omega), ?_⟩⟩
  · rw [warning, Log.chars_messagePart]
  · rintro (⟨v, rfl⟩ | ⟨hdot, hk⟩)
    · exact distinct_find hs
    · obtain ⟨r, hr⟩ := List.head?_eq_some_iff.1 hdot
      exact distinct_of_dot hr hk

end Call

namespace Document

/-- **The highlight of a call that failed.**  If diagnostics are not suppressed, then a call
that fails is not warned of at all, or it fails with a setback and is warned of once; what is
highlighted in the warning is its subject exactly if the subject is distinct. -/
theorem highlight_of_failure {d : Document} {c : Call} {e : Error}
    (h : d.verdict c = .error e) (hloud : d.suppressDiagnostics.on = false)
    (hs : c.subject ≠ "") :
    ((∀ s, e ≠ .setback s) ∧ (d.call c).log = []) ∨
      ∃ s w m, e = .setback s ∧ (d.call c).log = [w] ∧ w.level = Log.warning ∧
        c.Marked s (Log.messagePart w.message.toList w.subject) m := by
  have hreports := reports_verdict d c
  rw [h] at hreports
  cases e with
  | setback s =>
    obtain ⟨m, hm⟩ := c.marked_warning s hs
    refine .inr ⟨s, c.warning s, m, rfl, ?_, rfl, hm⟩
    rw [hreports.2, hloud]
    rfl
  | _ => exact .inl ⟨nofun, hreports.2⟩

/-- A member that is missing: its path stands behind `query ` and is highlighted there. -/
theorem highlight_of_failure_missing :
    (loud.verdict (.query (.string ".b")) = .error (.setback (.unresolved [.field "b"] 0)) ∧
      loud.suppressDiagnostics.on = false ∧ (Call.query (.string ".b")).subject ≠ "") ∧
      ∃ w, (loud.call (.query (.string ".b"))).log = [w] ∧
        (Log.messagePart w.message.toList w.subject).spans = [⟨6, 8, Log.subjectStyle⟩] := by
  have hverdict : loud.verdict (.query (.string ".b")) =
      .error (.setback (.unresolved [.field "b"] 0)) := rfl
  have hsubject : (Call.query (.string ".b")).subject ≠ "" := by decide
  refine ⟨⟨hverdict, rfl, hsubject⟩, ?_⟩
  rcases highlight_of_failure hverdict rfl hsubject with ⟨hne, -⟩ | ⟨s, w, m, -, hlog, -, hm⟩
  · exact absurd rfl (hne _)
  · have hkept : ".b".toList.all isKept = true := by decide
    have hspan := hm.covers.2 (hm.distinct (.inr ⟨rfl, List.all_eq_true.1 hkept⟩))
    exact ⟨w, hlog, hm.spans.trans (congrArg (fun m => [m]) hspan)⟩

/-- The path `e` has no dot, so it fails.  It is searched in the warning
`query e failed: …`, and what is highlighted is the `e` of `query`. -/
theorem name_marked :
    loud.verdict (.query (.string "e")) = .error (.setback (.malformed "e" .noLeadingDot)) ∧
      loud.suppressDiagnostics.on = false ∧
      ∃ w, (loud.call (.query (.string "e"))).log = [w] ∧
        (Log.messagePart w.message.toList w.subject).spans = [⟨2, 3, Log.subjectStyle⟩] ∧
        (Call.query (.string "e")).subjectSpan = ⟨6, 7, Log.subjectStyle⟩ := by
  refine ⟨rfl, rfl, (Call.query (.string "e")).warning (.malformed "e" .noLeadingDot), rfl,
    by decide, by decide⟩

end Document

end JsonPaths
