/-
JsonPaths/Proofs/Document/Loading.lean

A file is loaded as its text is read.

Between the bytes of a file and the reader stand the decoding, which undoes the encoding of
the text, and the translation of line ends, which the reader does not notice.  The two ways
to a document turn what the reader comes to into errors of their own, but into errors of one
kind: the input is refused, or a number has too many digits (`ofFile_agrees_ofText`).
-/
import JsonPaths.Proofs.Document.Calls
import JsonPaths.Proofs.Except
import JsonPaths.Proofs.Json.Newlines
import JsonPaths.Proofs.Path.Relabel
import JsonPaths.Proofs.Text.Utf8
import Mathlib.Data.List.Basic

namespace JsonPaths

/-- The errors that say that an input is refused: a document or a file that is null, a value
that is not JSON, a text or a file that is not JSON, and a file that cannot be read. -/
def Error.InvalidInput : Error → Prop
  | .nullDocument | .notJson _ _ | .badText _ _ _ _ | .unreadableFile _ _
  | .badFile _ _ _ _ _ | .nullFile _ => True
  | _ => False

namespace Document

variable {config : Config} {options : Options} {files : Directory.Entries} {place : Location}
  {s : String} {v : Json} {n line column offset : Nat} {f : Json.Fault}

/-! ### What the reader comes to -/

theorem exists_ofJson (config : Config) (options : Options) (hv : v ≠ .null) :
    ∃ e, ofJson config options v = .ok e ∧ e.value = v := by
  obtain ⟨e, he⟩ : ∃ e, ofJson config options v = .ok e := by
    cases v <;> first | exact absurd rfl hv | exact ⟨_, rfl⟩
  refine ⟨e, he, ?_⟩
  rw [value, (ofJson_eq_ok he).1, Value.erase_json_withMarks]

theorem ofText_of_read (h : Json.read s = .ok v) :
    ofText config options (.string s) = ofJson config options v := by
  rw [ofText, h]

theorem exists_ofText (config : Config) (options : Options) (hv : v ≠ .null)
    (h : Json.read s = .ok v) :
    ∃ e, ofText config options (.string s) = .ok e ∧ e.value = v := by
  rw [ofText_of_read h]
  exact exists_ofJson config options hv

theorem ofText_of_fault (h : Json.read s = .error (.fault f line column offset)) :
    ofText config options (.string s) = .error (.badText f line column offset) := by
  rw [ofText, h]

theorem ofText_of_long (h : Json.read s = .error (.tooManyDigits n)) :
    ofText config options (.string s) = .error (.tooManyDigits n) := by
  rw [ofText, h]

/-- A file that holds the bytes of a text is read as the text with one kind of line end. -/
theorem fileText_of_read {t : List Char}
    (h : Directory.read place files = .ok (Text.Utf8.encode t)) :
    fileText files place = .ok (String.ofList (Text.unifyNewlines t)) := by
  rw [fileText, h]
  dsimp only
  rw [Text.Utf8.decode_encode]

section Read

variable (ht : fileText files place = .ok s)

include ht

theorem ofFile_of_read (hv : v ≠ .null) (h : Json.read s = .ok v) :
    (ofFile config options files place).1 = ofJson config options v := by
  have hvalue : fileValue files place = .ok v := by
    rw [fileValue, ht]
    dsimp only
    rw [h]
    cases v with
    | null => exact absurd rfl hv
    | _ => rfl
  rw [ofFile, hvalue]

theorem exists_ofFile (config : Config) (options : Options) (hv : v ≠ .null)
    (h : Json.read s = .ok v) :
    ∃ e, (ofFile config options files place).1 = .ok e ∧ e.value = v := by
  rw [ofFile_of_read ht hv h]
  exact exists_ofJson config options hv

theorem ofFile_of_null (h : Json.read s = .ok .null) :
    (ofFile config options files place).1 = .error (.nullFile place) := by
  have hvalue : fileValue files place = .error (.nullFile place) := by
    rw [fileValue, ht]
    dsimp only
    rw [h]
  rw [ofFile, hvalue]

theorem ofFile_of_fault (h : Json.read s = .error (.fault f line column offset)) :
    (ofFile config options files place).1 = .error (.badFile place f line column offset) := by
  have hvalue : fileValue files place = .error (.badFile place f line column offset) := by
    rw [fileValue, ht]
    dsimp only
    rw [h]
  rw [ofFile, hvalue]

theorem ofFile_of_long (h : Json.read s = .error (.tooManyDigits n)) :
    (ofFile config options files place).1 = .error (.tooManyDigits n) := by
  have hvalue : fileValue files place = .error (.tooManyDigits n) := by
    rw [fileValue, ht]
    dsimp only
    rw [h]
  rw [ofFile, hvalue]

end Read

/-! ### The main result -/

/-- **A file is loaded as its text is read.**  Let a file hold a text, with line ends of any
kinds and with a byte order mark or without one.  Then the text and the file make the same
document, or both are refused as an input, or both have the same number with too many
digits. -/
theorem ofFile_agrees_ofText (config : Config) (options : Options)
    (h : Directory.read place files = .ok (Text.Utf8.encode s.toList)) :
    (∃ d, ofText config options (.string s) = .ok d ∧
        (ofFile config options files place).1 = .ok d) ∨
      (∃ e e', ofText config options (.string s) = .error e ∧
        (ofFile config options files place).1 = .error e' ∧ e.InvalidInput ∧ e'.InvalidInput) ∨
      ∃ n, ofText config options (.string s) = .error (.tooManyDigits n) ∧
        (ofFile config options files place).1 = .error (.tooManyDigits n) := by
  have ht := fileText_of_read h
  rcases Json.read_unifyNewlines s with
    ⟨v, hv, hv'⟩ | ⟨f, _, _, _, _, _, _, hf, hf'⟩ | ⟨n, hn, hn'⟩
  · rw [ofText_of_read hv]
    by_cases hnull : v = .null
    · rw [hnull] at hv' ⊢
      exact .inr (.inl ⟨_, _, rfl, ofFile_of_null ht hv', trivial, trivial⟩)
    · obtain ⟨d, hd, -⟩ := exists_ofJson config options hnull
      exact .inl ⟨d, hd, (ofFile_of_read ht hnull hv').trans hd⟩
  · exact .inr (.inl ⟨_, _, ofText_of_fault hf, ofFile_of_fault ht hf', trivial, trivial⟩)
  · exact .inr (.inr ⟨n, ofText_of_long hn, ofFile_of_long ht hn'⟩)

/-- A text with three kinds of line end. -/
def mixedLines : String := "[1,\r\n2,\r3\n]"

/-- Where the text is stored. -/
def mixedLinesPlace : Location := ⟨0, [['l', 'i', 'n', 'e', 's']]⟩

/-- The files with the text stored. -/
def mixedLinesFiles : Directory.Entries :=
  [([], .directory [([], .directory
    [(['l', 'i', 'n', 'e', 's'], .file (Text.Utf8.encode mixedLines.toList))])])]

theorem ofFile_agrees_ofText_mixed :
    Directory.read mixedLinesPlace mixedLinesFiles = .ok (Text.Utf8.encode mixedLines.toList) ∧
      ∃ d, ofText .default ⟨none, none, none⟩ (.string mixedLines) = .ok d ∧
        (ofFile .default ⟨none, none, none⟩ mixedLinesFiles mixedLinesPlace).1 = .ok d ∧
        Json.compactText d.value = "[1,2,3]" := by
  have hread : (Json.read mixedLines).map Json.compactText = .ok "[1,2,3]" := by decide +kernel
  obtain ⟨v, hv, htext⟩ := Except.map_eq_ok.1 hread
  have hne : v ≠ .null := by
    rintro rfl
    exact absurd htext (by decide +kernel)
  have hfile : Directory.read mixedLinesPlace mixedLinesFiles =
      .ok (Text.Utf8.encode mixedLines.toList) := rfl
  obtain ⟨d, hd, hvalue⟩ := exists_ofText .default ⟨none, none, none⟩ hne hv
  refine ⟨hfile, d, hd, ?_, ?_⟩
  · rcases ofFile_agrees_ofText .default ⟨none, none, none⟩ hfile with
      ⟨d', hd', hd''⟩ | ⟨e, e', he, -⟩ | ⟨n, hn, -⟩
    · cases hd.symm.trans hd'
      exact hd''
    · cases hd.symm.trans he
    · cases hd.symm.trans hn
  · rw [hvalue, ← htext]

end Document

end JsonPaths
