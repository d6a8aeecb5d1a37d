/-
JsonPaths/Proofs/Document/RoundTrip.lean

Documents that are saved and loaded again.

The text of a document is read back as its value, whether it is the compact text that a
query answers or a text that is saved with an indentation; and through a file the same
text comes back, since it is decoded from the bytes that it was encoded to and has no line
ends that reading would change (`fileText_of_saveTo`).  So a document that is loaded from
what was saved holds the identical value (`load_after_save`).
-/
import JsonPaths.Proofs.Document.Invariant
import JsonPaths.Proofs.Document.Loading
import JsonPaths.Proofs.Document.Search
import JsonPaths.Proofs.Json.LineEnds
import JsonPaths.Proofs.Storage.Directory

namespace JsonPaths

/-! ### Indentations -/

namespace Indent

/-- An indentation that is a number of spaces, a truth value taken for one, or none at
all. -/
def Counted : Indent → Prop
  | .none | .spaces _ | .truth _ => True
  | .text _ | .unusable _ => False

variable {i : Indent}

/-- A number of spaces can be used if there is room for so many; a negative one can as far
as it is a machine word. -/
theorem exists_margin_iff (hi : i.Counted) :
    (∃ m, i.margin = .ok m) ↔ ∀ n, i = .spaces n → -Int.pow 2 63 ≤ n ∧ n < roomLimit := by
  cases i with
  | none => exact iff_of_true ⟨_, rfl⟩ nofun
  | truth b => exact iff_of_true ⟨_, rfl⟩ nofun
  | text | unusable => exact hi.elim
  | spaces n =>
    have hroom : roomLimit < Int.pow 2 63 := by decide
    simp only [spaces.injEq, forall_eq', margin]
    by_cases hrange : n < -Int.pow 2 63 ∨ Int.pow 2 63 ≤ n
    · rw [if_pos hrange]
      exact iff_of_false nofun fun hn => by omega
    by_cases hlimit : roomLimit ≤ n
    · rw [if_neg hrange, if_pos hlimit]
      exact iff_of_false nofun fun hn => by omega
    · rw [if_neg hrange, if_neg hlimit]
      exact iff_of_true ⟨_, rfl⟩ (by omega)

theorem isSpacing_replicate (n : Nat) : Json.IsSpacing (List.replicate n ' ') := fun _ hc =>
  .inl (List.eq_of_mem_replicate hc)

theorem isSpacing_margin (hi : i.Counted) {m : Nat → List Char}
    (h : i.margin = .ok (some m)) (depth : Nat) : Json.IsSpacing (m depth) := by
  cases i with
  | none => cases h
  | truth b =>
    cases h
    exact isSpacing_replicate _
  | text | unusable => exact hi.elim
  | spaces n =>
    unfold margin at h
    dsimp only at h
    split at h
    · cases h
    split at h
    · cases h
    · cases h
      exact isSpacing_replicate _

end Indent

namespace Document

variable {d : Document} {v : Json} {text : String} {l : Json.Layout}

/-! ### The value of a document -/

theorem ReachableBy.value_ne_null {given : Candidate → Prop}
    {allowed : Document → Call → Prop} (h : ReachableBy given allowed d) :
    d.value ≠ .null := by
  have hroot := h.valid.root_ne_null
  rw [value]
  cases hr : d.root with
  | null => exact absurd hr hroot
  | bool | int | double | string | array | object => simp [Value.erase]

/-! ### The text that is saved -/

theorem savedText_eq_ok_iff : d.savedText = .ok text ↔
    ∃ l t, d.layout = .ok l ∧ Json.write l d.value = some t ∧ text = t ++ "\n" := by
  rw [savedText]
  cases d.layout with
  | error e => exact iff_of_false nofun nofun
  | ok l =>
    cases ht : Json.write l d.value with
    | none => simp [bind, Except.bind, Error.orTooLong, ht]
    | some t => simp [bind, Except.bind, pure, Except.pure, Error.orTooLong, ht, eq_comm]

/-- A text is saved if the value has one and the indentation can be used. -/
theorem exists_savedText_iff (hn : d.value.WithinDigits) (hi : d.indent.Counted) :
    (∃ text, d.savedText = .ok text) ↔
      ∀ n, d.indent = .spaces n → -Int.pow 2 63 ≤ n ∧ n < Indent.roomLimit := by
  have hlayout : (∃ text, d.savedText = .ok text) ↔ ∃ l, d.layout = .ok l := by
    simp only [savedText_eq_ok_iff]
    constructor
    · rintro ⟨_, l, t, hl, -, -⟩
      exact ⟨l, hl⟩
    · rintro ⟨l, hl⟩
      obtain ⟨t, ht⟩ := (Json.exists_write_iff l d.value).2 hn
      exact ⟨_, l, t, hl, ht, rfl⟩
  rw [hlayout, ← Indent.exists_margin_iff hi, layout]
  cases d.indent.margin with
  | error f => exact iff_of_false nofun nofun
  | ok m => cases m <;> exact iff_of_true ⟨_, rfl⟩ ⟨_, rfl⟩

/-- The layout of an indentation by spaces is loose. -/
theorem loose_of_layout (hi : d.indent.Counted) (h : d.layout = .ok l) : l.Loose := by
  unfold layout at h
  split at h
  · cases h
  · cases h
    exact Json.loose_spaced
  · next m hm =>
    cases h
    exact Json.loose_indented (Indent.isSpacing_margin hi hm)

theorem savedText_eq_ok (hi : d.indent.Counted) (h : d.savedText = .ok text) :
    ∃ l t, l.Loose ∧ Json.write l d.value = some t ∧ text = t ++ "\n" := by
  obtain ⟨l, t, hl, ht, rfl⟩ := savedText_eq_ok_iff.1 h
  exact ⟨l, t, loose_of_layout hi hl, ht, rfl⟩

theorem write_string (l : Json.Layout) (s : String) :
    Json.write l (.string s) = some (String.ofList (Json.stringText s)) := by
  rw [Json.write, Json.writeAt]
  rfl

theorem fileContent_eq_ok (hi : d.indent.Counted) (h : d.fileContent = .ok text) :
    ∃ l t, l.Loose ∧ Json.write l d.value = some t ∧ text = t ++ "\n" := by
  unfold fileContent at h
  split at h
  · next s hs =>
    cases h
    exact ⟨.spaced, _, Json.loose_spaced, hs ▸ write_string .spaced s, rfl⟩
  · exact savedText_eq_ok hi h

/-- A saved text is read as the value. -/
theorem read_saved (hl : l.Loose) (hd : v.Distinct) {t : String} (ht : Json.write l v = some t) :
    Json.read (t ++ "\n") = .ok v :=
  Json.read_write (b := ['\n']) hl hd ht (by simp [Json.IsSpacing])

/-! ### Through a file -/

theorem saveTo_eq_ok {files moved : Directory.Entries} {place : Location} {log : List Record}
    (h : d.saveTo files place = (.ok (), moved, log)) :
    ∃ text written, d.fileContent = .ok text ∧
      Directory.write (place.addEnding temporaryEnding) (Text.Utf8.encode text.toList) files =
        .ok written ∧
      Directory.replace (place.addEnding temporaryEnding) place written = .ok moved := by
  unfold saveTo at h
  split at h
  · cases h
  next text htext =>
  split at h
  · cases h
  dsimp only at h
  split at h
  · cases h
  next written hw =>
  split at h
  · cases h
  next hr =>
  cases h
  exact ⟨text, written, htext, hw, hr⟩

/-- The text that is read from a file is the text that was saved to it. -/
theorem fileText_of_saveTo {files moved : Directory.Entries} {place : Location}
    {log : List Record} (hi : d.indent.Counted)
    (h : d.saveTo files place = (.ok (), moved, log)) :
    ∃ l t, l.Loose ∧ Json.write l d.value = some t ∧ fileText moved place = .ok (t ++ "\n") := by
  obtain ⟨text, written, htext, hw, hr⟩ := saveTo_eq_ok h
  obtain ⟨l, t, hl, ht, rfl⟩ := fileContent_eq_ok hi htext
  have hclean : Text.Clean (t ++ "\n").toList := by
    rw [String.toList_append]
    exact (Json.clean_of_writeAt hl (Json.write_eq_some_iff.1 ht)).append (by decide)
  refine ⟨l, t, hl, ht, ?_⟩
  rw [fileText_of_read (Directory.read_of_replace hw hr), Text.unifyNewlines_of_clean hclean,
    String.ofList_toList]

/-! ### Loading after saving -/

/-- **Saving then loading gives the document back.**  Let the indentation of a document be
a number of spaces, of any sign, or none at all, and let its whole numbers have no more
digits than a text may write.  A text is saved unless there is no room for so many spaces.
The text that is saved, the file that is saved to, and the compact text that the query of
the root answers each make a document with the identical value. -/
theorem load_after_save (hd : d.ProperReachable) (hn : d.value.WithinDigits)
    (hi : d.indent.Counted) (config : Config) (options : Options) :
    ((∃ text, d.savedText = .ok text) ↔
        ∀ n, d.indent = .spaces n → -Int.pow 2 63 ≤ n ∧ n < Indent.roomLimit) ∧
      (∀ text, d.savedText = .ok text →
        ∃ e, ofText config options (.string text) = .ok e ∧ e.value = d.value) ∧
      (∀ files place moved log, d.saveTo files place = (.ok (), moved, log) →
        ∃ e, (ofFile config options moved place).1 = .ok e ∧ e.value = d.value) ∧
      ∃ text, (d.query (.string ".")).result = .ok text ∧
        ∃ e, ofText config options (.string text) = .ok e ∧ e.value = d.value := by
  have hdist : d.value.Distinct := hd.distinct_value fun _ _ h => h
  have hnull := hd.value_ne_null
  refine ⟨exists_savedText_iff hn hi, fun text h => ?_, fun files place moved log h => ?_, ?_⟩
  · obtain ⟨l, t, hl, ht, rfl⟩ := savedText_eq_ok hi h
    exact exists_ofText config options hnull (read_saved hl hdist ht)
  · obtain ⟨l, t, hl, ht, hfile⟩ := fileText_of_saveTo hi h
    exact exists_ofFile hfile config options hnull (read_saved hl hdist ht)
  · have hquery : d.root.query [] = .ok d.value := rfl
    obtain ⟨t, ht⟩ := (Json.exists_write_iff .compact d.value).2 hn
    have hread := Json.read_write (b := []) Json.loose_compact hdist ht (by simp [Json.IsSpacing])
    rw [String.ofList_nil, String.append_empty] at hread
    have hroot : Path.parse "." = .ok [] := by decide +kernel
    have hresult := (result_query hroot hquery).trans (Error.orTooLong_of_some ht)
    exact ⟨t, hresult, exists_ofText config options hnull hread⟩

/-- A document with numbers of both kinds, a string that is escaped, and arrays and objects
that are empty or not. -/
def mixed : Document where
  root := .object 0 [("a", .array 1 [.int (-1), .double (Double.zero true),
    .string "\"\r\n\u00e9", .null]), ("b", .object 2 []), ("", .bool true)]
  next := 3
  suppressErrors := .ofBool false
  suppressDiagnostics := .ofBool false
  indent := .spaces 2
  index := none

theorem ofCandidate_mixed :
    Document.ofCandidate .default ⟨none, none, some (.spaces 2)⟩ (.json mixed.value) = .ok mixed :=
  rfl

theorem distinct_mixed : mixed.value.Distinct := by
  have hatom {v : Json} (h : v.mark? = none) : v.Distinct := Value.distinct_of_mark?_eq_none h
  have hitems : (Value.array () [.int (-1), .double (Double.zero true),
      .string "\"\r\n\u00e9", .null] : Json).Distinct := by
    simp only [Value.distinct_array_iff, List.forall_mem_cons]
    exact ⟨hatom rfl, hatom rfl, hatom rfl, hatom rfl, by simp⟩
  have hempty : (Value.object () [] : Json).Distinct :=
    Value.distinct_object_iff.2 ⟨List.nodup_nil, by simp⟩
  refine Value.distinct_object_iff.2 ⟨by decide, ?_⟩
  exact List.forall_mem_cons.2 ⟨hitems, List.forall_mem_cons.2 ⟨hempty,
    List.forall_mem_cons.2 ⟨hatom rfl, List.forall_mem_nil _⟩⟩⟩

theorem withinDigits_mixed : mixed.value.WithinDigits := by
  have hint : (Value.int (-1) : Json).WithinDigits := Value.withinDigits_int_iff.2 (by decide)
  have hitems : (Value.array () [.int (-1), .double (Double.zero true),
      .string "\"\r\n\u00e9", .null] : Json).WithinDigits := by
    simp only [Value.withinDigits_array_iff, List.forall_mem_cons]
    exact ⟨hint, Value.withinDigits_of_atom rfl nofun, Value.withinDigits_of_atom rfl nofun,
      Value.withinDigits_of_atom rfl nofun, by simp⟩
  have hempty : (Value.object () [] : Json).WithinDigits :=
    Value.withinDigits_object_iff.2 (by simp)
  refine Value.withinDigits_object_iff.2 ?_
  exact List.forall_mem_cons.2 ⟨hitems, List.forall_mem_cons.2 ⟨hempty,
    List.forall_mem_cons.2 ⟨Value.withinDigits_of_atom rfl nofun, List.forall_mem_nil _⟩⟩⟩

/-- Where the document is saved. -/
def mixedPlace : Location := ⟨0, [['m', 'i', 'x', 'e', 'd']]⟩

theorem mixed_saved_and_loaded :
    (mixed.ProperReachable ∧ mixed.value.WithinDigits ∧ mixed.indent.Counted) ∧
      (∃ text, mixed.savedText = .ok text ∧
        ∃ e, ofText .default ⟨none, none, none⟩ (.string text) = .ok e ∧
          e.value = mixed.value) ∧
      ∃ moved log, mixed.saveTo Directory.initial mixedPlace = (.ok (), moved, log) ∧
        ∃ e, (ofFile .default ⟨none, none, none⟩ moved mixedPlace).1 = .ok e ∧
          e.value = mixed.value := by
  have hproper : mixed.ProperReachable :=
    .ofCandidate (Candidate.proper_json distinct_mixed) ofCandidate_mixed
  obtain ⟨hsaved, hstream, hfile, -⟩ := load_after_save hproper withinDigits_mixed trivial .default
    ⟨none, none, none⟩
  have hroom : ∀ n, mixed.indent = .spaces n → -Int.pow 2 63 ≤ n ∧ n < Indent.roomLimit := by
    rintro n ⟨⟩
    decide
  obtain ⟨text, htext⟩ := hsaved.2 hroom
  have hto : ∃ moved log, mixed.saveTo Directory.initial mixedPlace = (.ok (), moved, log) := by
    have hcontent : mixed.fileContent = .ok text := htext
    unfold saveTo
    rw [hcontent]
    exact ⟨_, _, rfl⟩
  obtain ⟨moved, log, hto⟩ := hto
  exact ⟨⟨hproper, withinDigits_mixed, trivial⟩, ⟨text, htext, hstream text htext⟩, moved, log, hto,
    hfile _ _ _ _ hto⟩

end Document

end JsonPaths
