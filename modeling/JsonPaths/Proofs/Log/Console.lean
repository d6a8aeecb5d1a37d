/-
JsonPaths/Proofs/Log/Console.lean

How a console line is laid out.

The highlight of a message is found in the message as it is given and set in the message
without the dropped characters, where it is cut off at the end (`spans_messagePart`).
Every part of a line is tidy, so the line is, and each part stands behind the parts before
it.  `Laid` says what that comes to for each of the styles, and `line_laid_out` that every
line that is printed is laid out so, whatever its message, subject, level name and file.
-/
import JsonPaths.Log.Console
import JsonPaths.Proofs.Log.Styled

namespace JsonPaths.Log

open Styled (clean isKept FirstAt)

variable {message : List Char} {subject : Option String} {s name : String}

/-! ### The highlight -/

/-- A message has a highlight for the first place where its subject occurs, if it has one
that is not empty. -/
theorem messagePart_cases (message : List Char) (subject : Option String) :
    messagePart message subject = .plain message ∨
      ∃ s i, subject = some s ∧ s ≠ "" ∧ FirstAt s.toList message i ∧
        messagePart message subject =
          (Styled.plain message).stylize subjectStyle i (i + s.length) := by
  cases subject with
  | none => exact .inl rfl
  | some s =>
    rw [messagePart]
    by_cases hs : s = ""
    · exact .inl (if_pos hs)
    · rw [if_neg hs]
      cases ho : Styled.occurrence? s.toList message with
      | none => exact .inl rfl
      | some i => exact .inr ⟨s, i, rfl, hs, Styled.occurrence?_eq_some_iff.1 ho, rfl⟩

theorem messagePart_of_firstAt {i : Nat} (hs : s ≠ "") (hi : FirstAt s.toList message i) :
    messagePart message (some s) =
      (Styled.plain message).stylize subjectStyle i (i + s.length) := by
  rw [messagePart, if_neg hs, Styled.occurrence?_eq_some_iff.2 hi]

theorem chars_messagePart (message : List Char) (subject : Option String) :
    (messagePart message subject).chars = clean message := by
  rcases messagePart_cases message subject with h | ⟨s, i, -, -, -, h⟩
  · rw [h]
    rfl
  · rw [h, Styled.chars_stylize]
    rfl

theorem length_pos_of_ne_empty (h : s ≠ "") : 0 < s.length := by
  rw [← String.length_toList]
  exact List.length_pos_iff.2 fun e => h (String.toList_eq_nil_iff.1 e)

/-- A subject that occurs is highlighted, if the place where it does is still in the
message that is shown; the highlight ends with the message at the latest. -/
theorem spans_messagePart {i : Nat} (hs : s ≠ "") (hi : FirstAt s.toList message i)
    (hlt : i < (clean message).length) :
    (messagePart message (some s)).spans =
      [⟨i, min (clean message).length (i + s.length), subjectStyle⟩] := by
  have hpos := length_pos_of_ne_empty hs
  rw [messagePart_of_firstAt hs hi, Styled.spans_stylize hlt (by omega)]
  rfl

/-- There is no other highlight. -/
theorem spans_messagePart_cases (message : List Char) (subject : Option String) :
    (messagePart message subject).spans = [] ∨
      ∃ s i, subject = some s ∧ s ≠ "" ∧ FirstAt s.toList message i ∧
        i < (clean message).length := by
  rcases messagePart_cases message subject with h | ⟨s, i, hsubject, hs, hi, h⟩
  · exact .inl (h ▸ rfl)
  · by_cases hlt : i < (clean message).length
    · exact .inr ⟨s, i, hsubject, hs, hi, hlt⟩
    · rw [h, Styled.stylize_of_outside (Nat.le_of_not_lt hlt)]
      exact .inl rfl

theorem tidy_messagePart (message : List Char) (subject : Option String) :
    (messagePart message subject).Tidy := by
  rcases spans_messagePart_cases message subject with h | ⟨s, i, rfl, hs, hi, hlt⟩
  · exact ⟨h ▸ .nil, h ▸ nofun⟩
  · have hpos := length_pos_of_ne_empty hs
    have hspans := spans_messagePart hs hi hlt
    refine ⟨hspans ▸ List.pairwise_singleton _ _, fun sp hsp => ?_⟩
    rw [hspans, List.mem_singleton] at hsp
    subst hsp
    rw [chars_messagePart]
    dsimp only
    omega

/-! ### The parts of a line -/

theorem colon_mem_clock {m : Moment} {clock : List Char} (h : m.clock? = some clock) :
    ':' ∈ clock := by
  unfold Moment.clock? at h
  split at h
  · cases h
  · split at h
    · cases h
    · cases h
      simp

/-- The names of levels that have a style. -/
theorem isSome_lookup_levelStyles :
    (levelStyles.lookup name).isSome = true ↔
      name ∈ ["DEBUG", "INFO", "WARNING", "ERROR", "CRITICAL"] := by
  rw [List.lookup_isSome_iff]
  simp [levelStyles]

theorem clean_padName_ne_nil (h : (levelStyles.lookup name).isSome = true) :
    clean (padName name.toList) ≠ [] := by
  rw [isSome_lookup_levelStyles] at h
  simp only [List.mem_cons, List.not_mem_nil, or_false] at h
  rcases h with rfl | rfl | rfl | rfl | rfl <;> decide

/-! ### The line -/

/-- Where the message starts in a line. -/
def messageStart (clock : List Char) (name : String) : Nat :=
  (clean clock).length + 1 + (clean (padName name.toList)).length + 1

/-- How a line is laid out, with the given highlights.  The characters are the parts of
the line, each without what is dropped, and one space between each two.  One style covers
the time, one the name of the level if it has a style, as five names have, and one the
place in the source.  A highlight lies in the message; if the message keeps all its
characters, then it covers the first occurrence of the subject, and there is one if there
is an occurrence. -/
structure Laid (clock : List Char) (name : String) (message : List Char)
    (subject : Option String) (file number : List Char) (line : Styled)
    (marks : List Span) : Prop where
  chars : line.chars = clean clock ++ ' ' :: (clean (padName name.toList) ++
    ' ' :: (clean message ++ ' ' :: clean (placeText file number)))
  spans : line.spans = ⟨0, (clean clock).length, asideStyle⟩ ::
    ((levelStyles.lookup name).toList.map (fun style => ⟨(clean clock).length + 1,
        (clean clock).length + 1 + (clean (padName name.toList)).length, style⟩) ++
      marks ++ [⟨line.chars.length - (clean (placeText file number)).length,
        line.chars.length, asideStyle⟩])
  styled : (levelStyles.lookup name).isSome = true ↔
    name ∈ ["DEBUG", "INFO", "WARNING", "ERROR", "CRITICAL"]
  tidy : line.Tidy
  single : marks.length ≤ 1
  inMessage : ∀ m ∈ marks, m.style = subjectStyle ∧ messageStart clock name ≤ m.start ∧
    m.stop ≤ messageStart clock name + (clean message).length
  first : (∀ c ∈ message, isKept c = true) → ∀ m, m ∈ marks ↔
    ∃ s i, subject = some s ∧ s ≠ "" ∧ FirstAt s.toList message i ∧
      m = ⟨messageStart clock name + i, messageStart clock name + i + s.length, subjectStyle⟩

/-- The parts of a line with the spaces between them. -/
def lineParts (clock : List Char) (name : String) (message : List Char)
    (subject : Option String) (file number : List Char) : List Styled :=
  [.inStyle clock (some asideStyle), .plain [' '], namePart name, .plain [' '],
    messagePart message subject, .plain [' '], placePart file number]

variable {clock file number : List Char}

theorem lineAs?_eq {e : Event} (hc : e.created.clock? = some clock)
    (hm : Template.message e.template.toList e.args = some message)
    (hn : Text.intText? e.line = some number) (name : String) :
    e.lineAs? name =
      some (.concat (lineParts clock name message e.subject e.file.toList number)) := by
  rw [Event.lineAs?, hc, hm, hn]
  rfl

/-- A line is its time, its level with its message, and its place. -/
theorem concat_lineParts (clock : List Char) (level : Int) (message : List Char)
    (subject : Option String) (file number : List Char) :
    Styled.concat (lineParts clock (levelName level) message subject file number) =
      .concat [.inStyle clock (some asideStyle), .plain [' '],
        levelAndMessage level message subject, .plain [' '], placePart file number] :=
  (Styled.concat_append_concat [.inStyle clock (some asideStyle), .plain [' ']]
    [levelPart level, .plain [' '], messagePart message subject]
    [.plain [' '], placePart file number]).symm

theorem tidy_lineParts (h : clean clock ≠ []) :
    ∀ t ∈ lineParts clock name message subject file number, t.Tidy := by
  have hspace := Styled.tidy_plain [' ']
  have hplace : (placePart file number).Tidy :=
    Styled.tidy_inStyle fun _ => Styled.clean_ne_nil (c := '[') List.mem_cons_self (by decide)
  simp only [lineParts, List.forall_mem_cons]
  exact ⟨Styled.tidy_inStyle fun _ => h, hspace, Styled.tidy_inStyle clean_padName_ne_nil,
    hspace, tidy_messagePart message subject, hspace, hplace, nofun⟩

/-- A mark in a message that keeps its characters covers the first occurrence. -/
theorem mem_spans_messagePart (hk : ∀ c ∈ message, isKept c = true) (m : Span) :
    m ∈ (messagePart message subject).spans ↔ ∃ s i, subject = some s ∧ s ≠ "" ∧
      FirstAt s.toList message i ∧ m = ⟨i, i + s.length, subjectStyle⟩ := by
  have hself := Styled.clean_eq_self hk
  -- an occurrence ends in the message, so the highlight is not cut off
  have hends : ∀ s i, s ≠ "" → FirstAt s.toList message i → i + s.length ≤ message.length := by
    intro s i hs hi
    have hpos := length_pos_of_ne_empty hs
    have hle := hi.1.length_le
    rw [List.length_drop, String.length_toList] at hle
    omega
  constructor
  · intro hm
    rcases spans_messagePart_cases message subject with h | ⟨s, i, rfl, hs, hi, hlt⟩
    · rw [h] at hm
      cases hm
    · have hle := hends s i hs hi
      rw [spans_messagePart hs hi hlt, List.mem_singleton, hself, Nat.min_eq_right hle] at hm
      exact ⟨s, i, rfl, hs, hi, hm⟩
  · rintro ⟨s, i, rfl, hs, hi, rfl⟩
    have hle := hends s i hs hi
    have hpos := length_pos_of_ne_empty hs
    rw [spans_messagePart hs hi (by rw [hself]; omega), List.mem_singleton, hself,
      Nat.min_eq_right hle]

theorem clean_space : clean [' '] = [' '] := by decide

theorem laid_concat (h : clean clock ≠ []) :
    Laid clock name message subject file number
      (.concat (lineParts clock name message subject file number))
      ((messagePart message subject).spans.map (Styled.shift (messageStart clock name))) := by
  have hchars : (Styled.concat (lineParts clock name message subject file number)).chars =
      clean clock ++ ' ' :: (clean (padName name.toList) ++
        ' ' :: (clean message ++ ' ' :: clean (placeText file number))) := by
    simp [Styled.concat_eq, lineParts, namePart, placePart, chars_messagePart, clean_space]
  refine ⟨hchars, ?_, isSome_lookup_levelStyles, Styled.Tidy.concat (tidy_lineParts h), ?_,
    fun m hm => ?_, fun hk m => ?_⟩
  · have hlength := congrArg List.length hchars
    simp only [List.length_append, List.length_cons] at hlength
    have hstop : (Styled.concat (lineParts clock name message subject file number)).chars.length
        = messageStart clock name + (clean message).length + 1 +
          (clean (placeText file number)).length := by
      rw [hlength, messageStart]
      omega
    rw [hstop, Nat.add_sub_cancel, Styled.concat_eq]
    simp [lineParts, namePart, placePart, chars_messagePart, clean_space, Styled.spansFrom,
      Styled.shift_mk, Function.comp_def, messageStart]
  · rw [List.length_map]
    rcases spans_messagePart_cases message subject with h | ⟨s, i, rfl, hs, hi, hlt⟩
    · rw [h]
      exact Nat.zero_le 1
    · rw [spans_messagePart hs hi hlt]
      exact Nat.le_refl 1
  · obtain ⟨sp, hsp, rfl⟩ := List.mem_map.1 hm
    rcases spans_messagePart_cases message subject with h | ⟨s, i, rfl, hs, hi, hlt⟩
    · rw [h] at hsp
      cases hsp
    · rw [spans_messagePart hs hi hlt, List.mem_singleton] at hsp
      subst hsp
      refine ⟨rfl, ?_, ?_⟩ <;> simp only [Styled.shift] <;> omega
  · simp only [List.mem_map, mem_spans_messagePart hk]
    constructor
    · rintro ⟨-, ⟨s, i, hsubject, hs, hi, rfl⟩, rfl⟩
      exact ⟨s, i, hsubject, hs, hi, by rw [Styled.shift_mk, Nat.add_assoc]⟩
    · rintro ⟨s, i, hsubject, hs, hi, rfl⟩
      exact ⟨_, ⟨s, i, hsubject, hs, hi, rfl⟩, by rw [Styled.shift_mk, Nat.add_assoc]⟩

/-- **Every line is laid out.**  A record comes to no line exactly if its time, its message
or the number of its line in the source cannot be shown, and to one line otherwise; the line
is laid out, whatever the message, the subject, the name of the level and the file are. -/
theorem line_laid_out (e : Event) (name : String) :
    (e.lineAs? name = none ↔
        e.created.clock? = none ∨ Template.message e.template.toList e.args = none ∨
          Text.intText? e.line = none) ∧
      ∀ line, e.lineAs? name = some line → ∃ clock message number marks,
        e.created.clock? = some clock ∧
          Template.message e.template.toList e.args = some message ∧
          Text.intText? e.line = some number ∧
          Laid clock name message e.subject e.file.toList number line marks := by
  cases hc : e.created.clock? with
  | none =>
    have hline : e.lineAs? name = none := by
      rw [Event.lineAs?, hc]
      rfl
    rw [hline]
    exact ⟨iff_of_true rfl (.inl rfl), nofun⟩
  | some clock =>
    cases hm : Template.message e.template.toList e.args with
    | none =>
      have hline : e.lineAs? name = none := by
        rw [Event.lineAs?, hc, hm]
        rfl
      rw [hline]
      exact ⟨iff_of_true rfl (.inr (.inl rfl)), nofun⟩
    | some message =>
      cases hn : Text.intText? e.line with
      | none =>
        have hline : e.lineAs? name = none := by
          rw [Event.lineAs?, hc, hm, hn]
          rfl
        rw [hline]
        exact ⟨iff_of_true rfl (.inr (.inr rfl)), nofun⟩
      | some number =>
        rw [lineAs?_eq hc hm hn name]
        refine ⟨iff_of_false nofun (by simp), fun line h => ?_⟩
        obtain rfl := Option.some.inj h
        exact ⟨clock, message, number, _, rfl, rfl, rfl,
          laid_concat (Styled.clean_ne_nil (colon_mem_clock hc) (by decide))⟩

/-- The record of a read that failed. -/
def failedRead : Event where
  template := "query .a failed"
  args := []
  level := warning
  file := "lib/doc.py"
  line := 7
  created := .whole 0
  subject := some ".a"

/-- The line `00:00:00 WARNING  query .a failed [doc.py:7]`, with the subject at 24. -/
theorem line_laid_out_warning :
    (failedRead.lineAs? "WARNING").map Styled.chars =
        some "00:00:00 WARNING  query .a failed [doc.py:7]".toList ∧
      ∃ line marks, failedRead.lineAs? "WARNING" = some line ∧
        Laid "00:00:00".toList "WARNING" "query .a failed".toList (some ".a")
          "lib/doc.py".toList "7".toList line marks ∧
        ⟨24, 26, subjectStyle⟩ ∈ marks := by
  have hclock : failedRead.created.clock? = some "00:00:00".toList := by decide +kernel
  have hmessage : Template.message failedRead.template.toList failedRead.args =
      some "query .a failed".toList := rfl
  have hnumber : Text.intText? failedRead.line = some "7".toList := by decide
  obtain ⟨hnone, hline⟩ := line_laid_out failedRead "WARNING"
  cases h : failedRead.lineAs? "WARNING" with
  | none =>
    rw [h, hclock, hmessage, hnumber] at hnone
    exact absurd (hnone.1 rfl) (by simp)
  | some line =>
    obtain ⟨clock, message, number, marks, hc, hm, hn, hlaid⟩ := hline line h
    obtain rfl := Option.some.inj (hclock.symm.trans hc)
    obtain rfl := Option.some.inj (hmessage.symm.trans hm)
    obtain rfl := Option.some.inj (hnumber.symm.trans hn)
    refine ⟨?_, line, marks, rfl, hlaid, ?_⟩
    · rw [Option.map_some, hlaid.chars]
      decide +kernel
    · have hkept : "query .a failed".toList.all Styled.isKept = true := by decide
      rw [hlaid.first (List.all_eq_true.1 hkept)]
      exact ⟨".a", 6, rfl, by decide, Styled.occurrence?_eq_some_iff.1 (by decide), by decide⟩

end JsonPaths.Log
