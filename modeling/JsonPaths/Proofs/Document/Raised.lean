/-
JsonPaths/Proofs/Document/Raised.lean

What is raised although errors are suppressed.

Suppression holds back setbacks and nothing else (`result_call_eq_error_iff`).  Of what can
stop a query on a path that is a text, and an assignment of a value that is JSON, three
things are no setback: an index in the path with too many digits, a whole number with too
many in what the query finds, and null for the root (`raised_of_suppressed`).  A number is
refused where it is converted, from the text of a path or of a document as into the text of
an answer, and nothing on the way takes that for a failure of the call (`overlong_raised`).
-/
import JsonPaths.Proofs.Document.Invariant
import JsonPaths.Proofs.Document.Loading
import JsonPaths.Proofs.Document.RoundTrip
import JsonPaths.Proofs.Path.Canonical

namespace JsonPaths

/-! ### What a query finds -/

/-- What is found on a path is a part of the value, or an array of what is found. -/
theorem Hit.forall_plain {P : Json → Prop} {root : Json} {h : Hit Unit Json} {k : Nat}
    (hpart : ∀ k v, root.Contains k v → P v)
    (harray : ∀ items, (∀ w ∈ items, P w) → P (.array () items)) (hf : h.Found root k) :
    P h.plain := by
  induction h using Hit.ind with
  | member m name v =>
    show P v.erase
    rw [Value.erase_json]
    exact hpart k v hf.contains
  | gathered hs ih =>
    rw [plain_gathered]
    refine harray _ fun w hw => ?_
    obtain ⟨g, hg, rfl⟩ := List.mem_map.1 hw
    exact ih g hg (hf.of_gathered g hg)

theorem Value.forall_query {P : Json → Prop} {root v : Json} {steps : List Step}
    (hpart : ∀ k v, root.Contains k v → P v)
    (harray : ∀ items, (∀ w ∈ items, P w) → P (.array () items))
    (h : root.query steps = .ok v) : P v := by
  obtain ⟨p, hp, rfl⟩ := query_eq_ok.1 h
  have hf := found_of_reach hp
  cases p with
  | value w =>
    show P w.erase
    rw [erase_json]
    exact hpart _ w hf
  | hits hs => exact Hit.forall_plain hpart harray (h := .gathered hs) (.gathered hf)

/-! ### Numbers with too many digits -/

/-- The text of a number with too many digits is refused for them. -/
theorem Json.read_long {n : Nat} (h : Text.digitLimit < (Nat.toDigits 10 n).length) :
    read (String.ofList (Nat.toDigits 10 n)) =
      .error (.tooManyDigits (Nat.toDigits 10 n).length) := by
  have hend : Closes [] := by simp [Closes]
  have hnumber : readNumber (signText false ++ (Nat.toDigits 10 n ++ [])) = _ :=
    readNumber_eq (isWhole_toDigits n) hend.isDigit hend.readFraction hend.readExponent
  simp only [List.isEmpty_nil, Option.isNone_none, Bool.and_self, if_true, if_pos h] at hnumber
  rw [List.append_nil] at hnumber
  obtain ⟨d, t, hd⟩ := List.exists_cons_of_ne_nil (Nat.toDigits_ne_nil (n := n) (b := 10))
  have hdigit : d.isDigit = true := Text.isDigit_of_mem_toDigits d (hd ▸ List.mem_cons_self)
  have hstart : StartsValue d := .inl (.inl hdigit)
  rw [hd] at hnumber ⊢
  have hmark : ∀ r, d :: t ≠ '\ufeff' :: r := fun r hr =>
    hstart.ne (by decide) (List.cons.inj hr).1
  have hplain : readPlain (d :: t) = _ := (readPlain_signText false hdigit).trans hnumber
  rw [read, String.toList_ofList, readAll.eq_2 _ hmark, skipBlank_cons hstart.isBlank,
    readValue_plain (.inl hdigit), hplain]
  rfl

namespace Document

variable {d : Document} {path : String} {c : Candidate} {v : Json} {e : Error}

/-! ### What suppression holds back -/

/-- **Suppression holds back setbacks and nothing else.** -/
theorem result_call_eq_error_iff (hs : d.suppressErrors.on = true) (c : Call) :
    (d.call c).result = .error e ↔ d.verdict c = .error e ∧ ∀ s, e ≠ .setback s := by
  rw [call_eq_reported]
  constructor
  · intro h
    cases hv : d.verdict c with
    | ok r =>
      rw [hv] at h
      cases h
    | error x =>
      rw [hv] at h
      cases x with
      | setback s =>
        simp only [reported, if_pos hs] at h
        cases h
      | _ =>
        cases h
        refine ⟨rfl, fun s hx => ?_⟩
        cases hx
  · rintro ⟨hv, hne⟩
    rw [hv]
    cases e with
    | setback s => exact absurd rfl (hne s)
    | _ => rfl

section NoSetback

variable (hne : ∀ s, e ≠ .setback s)

include hne

/-- A path that is a text stops a call for good only by an index with too many digits. -/
theorem ofJson_path_eq_error_iff : Path.ofJson (.string path) = .error e ↔
    ∃ n, e = .tooManyDigits n ∧ Path.Overlong path n := by
  simp only [← Path.ofJson_eq_long]
  constructor
  · intro h
    cases hp : Path.parse path with
    | ok steps =>
      rw [Path.ofJson, hp] at h
      cases h
    | error f =>
      rw [Path.ofJson, hp] at h
      cases f with
      | fault f =>
        cases h
        exact absurd rfl (hne _)
      | tooManyDigits n =>
        cases h
        refine ⟨n, rfl, ?_⟩
        rw [Path.ofJson, hp]
  · rintro ⟨n, rfl, h⟩
    exact h

theorem found_eq_error_iff : d.found (.string path) = .error e ↔
    ∃ n, e = .tooManyDigits n ∧ Path.Overlong path n := by
  rw [← ofJson_path_eq_error_iff hne, found]
  cases hp : Path.ofJson (.string path) with
  | error x =>
    show Except.error x = Except.error e ↔ _
    rw [Except.error.injEq, Except.error.injEq]
  | ok steps =>
    refine iff_of_false (fun h => ?_) (by rintro ⟨⟩)
    -- a query that fails is unresolved
    have hquery : (d.root.query steps).mapError (Error.ofObstacle steps) = .error e := h
    cases hq : d.root.query steps with
    | ok v =>
      rw [hq] at hquery
      cases hquery
    | error o =>
      rw [hq] at hquery
      obtain ⟨k, rfl⟩ := Place.walk_eq_error (Except.map_eq_error.1 hq)
      cases hquery
      exact hne _ rfl

theorem assigned_eq_error_iff {steps : List Step} : d.assigned steps v = .error e ↔
    e = .nullDocument ∧ v = .null ∧ steps = [] := by
  rcases steps.eq_nil_or_concat' with rfl | ⟨init, last, rfl⟩
  · cases v with
    | null =>
      show Except.error _ = _ ↔ _
      simp [eq_comm]
    | _ => exact iff_of_false nofun fun h => nomatch h.2.1
  · constructor
    · intro h
      obtain ⟨s, rfl, -⟩ := notFound_of_assigned h
      exact absurd rfl (hne s)
    · rintro ⟨-, -, h⟩
      exact absurd h (List.append_ne_nil_of_right_ne_nil _ (List.cons_ne_nil _ _))

theorem placed_eq_error_iff (hc : c.check = .ok v) : d.placed (.string path) c = .error e ↔
    e = .nullDocument ∧ v = .null ∧ Path.parse path = .ok [] ∨
      ∃ n, e = .tooManyDigits n ∧ Path.Overlong path n := by
  rw [← ofJson_path_eq_error_iff hne, placed_of_check hc]
  cases hp : Path.ofJson (.string path) with
  | error x =>
    show Except.error x = Except.error e ↔ _
    have hparse : Path.parse path ≠ .ok [] := by
      intro h
      rw [ofJson_of_parse h] at hp
      cases hp
    simp [hparse]
  | ok steps =>
    show d.assigned steps v = .error e ↔ _
    rw [assigned_eq_error_iff hne, parse_of_ofJson hp]
    simp

end NoSetback

/-! ### The main result -/

theorem result_query_eq_error_iff (hs : d.suppressErrors.on = true) :
    (d.query (.string path)).result = .error e ↔
      (∃ n, e = .tooManyDigits n ∧ Path.Overlong path n) ∨
        e = .tooLong ∧ ∃ w, d.found (.string path) = .ok w ∧ ¬w.WithinDigits := by
  have hcall : (d.query (.string path)).result = .error e ↔ _ :=
    Except.map_eq_error.symm.trans (result_call_eq_error_iff hs (.query (.string path)))
  rw [hcall, verdict_query_eq_error_iff]
  constructor
  · rintro ⟨h | h, hne⟩
    · exact .inl ((found_eq_error_iff hne).1 h)
    · exact .inr h
  · rintro (⟨n, rfl, hn⟩ | ⟨rfl, h⟩)
    · exact ⟨.inl ((found_eq_error_iff (e := .tooManyDigits n) nofun).2 ⟨n, rfl, hn⟩), nofun⟩
    · exact ⟨.inr ⟨rfl, h⟩, nofun⟩

theorem result_setPath_eq_error_iff (hs : d.suppressErrors.on = true) (hc : c.check = .ok v) :
    (d.setPath (.string path) c).result = .error e ↔
      e = .nullDocument ∧ v = .null ∧ Path.parse path = .ok [] ∨
        ∃ n, e = .tooManyDigits n ∧ Path.Overlong path n := by
  have hcall : (d.setPath (.string path) c).result = .error e ↔ _ :=
    Except.map_eq_error.symm.trans (result_call_eq_error_iff hs (.set (.string path) c))
  rw [hcall, verdict, Except.map_eq_error]
  constructor
  · rintro ⟨h, hne⟩
    exact (placed_eq_error_iff hne hc).1 h
  · intro h
    have hne : ∀ s, e ≠ .setback s := by
      rintro s rfl
      rcases h with ⟨hnull, -⟩ | ⟨n, hlong, -⟩
      · cases hnull
      · cases hlong
    exact ⟨(placed_eq_error_iff hne hc).2 h, hne⟩

/-- What is found in a value has what every part of the value has, if arrays have it whose
items have. -/
theorem forall_found {P : Json → Prop} (hpart : ∀ k v, d.value.Contains k v → P v)
    (harray : ∀ items, (∀ w ∈ items, P w) → P (.array () items)) {w : Json}
    (h : d.found (.string path) = .ok w) : P w := by
  unfold found at h
  cases hp : Path.ofJson (.string path) with
  | error x =>
    rw [hp] at h
    cases h
  | ok steps =>
    have hquery : (d.root.query steps).mapError (Error.ofObstacle steps) = .ok w := by
      rwa [hp] at h
    cases hq : d.root.query steps with
    | error o =>
      rw [hq] at hquery
      cases hquery
    | ok w' =>
      rw [hq] at hquery
      cases hquery
      rw [← Value.query_erase] at hq
      exact Value.forall_query hpart harray hq

theorem distinct_of_found (hd : d.value.Distinct) {w : Json}
    (h : d.found (.string path) = .ok w) : w.Distinct :=
  forall_found (fun _ _ hv => hd.of_contains hv)
    (fun _ hitems => Value.distinct_array_iff.2 hitems) h

/-- What is found in a value that can be written can be written. -/
theorem withinDigits_of_found (hn : d.value.WithinDigits) {w : Json}
    (h : d.found (.string path) = .ok w) : w.WithinDigits :=
  forall_found (fun _ _ hv => hn.of_contains hv)
    (fun _ hitems => Value.withinDigits_array_iff.2 hitems) h

/-- What a query answers is the text of a value, or stands for an error. -/
theorem read_of_query (hd : d.value.Distinct) {t : String}
    (h : (d.query (.string path)).result = .ok t) : t = "" ∨ ∃ w, Json.read t = .ok w := by
  have hcall : (d.call (.query (.string path))).result = .ok (.text t) :=
    Except.map_eq_ok.2 ⟨t, h, rfl⟩
  rw [call_eq_reported] at hcall
  cases hv : d.verdict (.query (.string path)) with
  | error x =>
    rw [hv] at hcall
    cases x with
    | setback s =>
      simp only [reported] at hcall
      split at hcall
      · cases hcall
        exact .inl rfl
      · cases hcall
    | _ => cases hcall
  | ok r =>
    obtain ⟨w, t', hf, ht, rfl⟩ := verdict_query_eq_ok_iff.1 hv
    rw [hv] at hcall
    cases hcall
    have hread := Json.read_write (b := []) Json.loose_compact (distinct_of_found hd hf) ht
      (by simp [Json.IsSpacing])
    rw [String.ofList_nil, String.append_empty] at hread
    exact .inr ⟨w, hread⟩

/-- **What is raised although errors are suppressed.**  A text makes a document, or is refused
as an input, or has a number with too many digits.  Let a document suppress errors, and let
the objects of its value be maps.  A query on a path raises nothing but that an index of the
path has too many digits, or that a whole number in what it finds has, which cannot be if
the whole numbers of the document have not; what it answers otherwise is empty or the text
of a value.  An assignment of a value raises nothing but the first of these, or that the
value is null and the path the root. -/
theorem raised_of_suppressed (config : Config) (options : Options) :
    (∀ s : String, (∃ e, ofText config options (.string s) = .ok e) ∨
        (∃ e, ofText config options (.string s) = .error e ∧ e.InvalidInput) ∨
        ∃ n, ofText config options (.string s) = .error (.tooManyDigits n) ∧
          Text.digitLimit < n ∧ Text.HasDigits n s.toList) ∧
      ∀ d : Document, d.suppressErrors.on = true → d.value.Distinct →
        ∀ path : String,
          (∀ e, (d.query (.string path)).result = .error e ↔
              (∃ n, e = .tooManyDigits n ∧ Path.Overlong path n) ∨
                e = .tooLong ∧ ∃ w, d.found (.string path) = .ok w ∧ ¬w.WithinDigits) ∧
            (d.value.WithinDigits → ∀ e, (d.query (.string path)).result = .error e ↔
              ∃ n, e = .tooManyDigits n ∧ Path.Overlong path n) ∧
            (∀ t, (d.query (.string path)).result = .ok t →
              t = "" ∨ ∃ w, Json.read t = .ok w) ∧
            ∀ c v, c.check = .ok v → ∀ e, (d.setPath (.string path) c).result = .error e ↔
              e = .nullDocument ∧ v = .null ∧ Path.parse path = .ok [] ∨
                ∃ n, e = .tooManyDigits n ∧ Path.Overlong path n := by
  refine ⟨fun s => ?_, fun d hs hd path => ⟨fun e => ?_, fun hn e => ?_, fun t ht => ?_,
    fun c v hc e => ?_⟩⟩
  · cases hr : Json.read s with
    | ok v =>
      rw [ofText_of_read hr]
      by_cases hnull : v = .null
      · rw [hnull]
        exact .inr (.inl ⟨_, rfl, trivial⟩)
      · obtain ⟨e, he, -⟩ := exists_ofJson config options hnull
        exact .inl ⟨e, he⟩
    | error x =>
      cases x with
      | fault f line column offset => exact .inr (.inl ⟨_, ofText_of_fault hr, trivial⟩)
      | tooManyDigits n =>
        obtain ⟨hlong, hdigits⟩ := Json.hasDigits_of_read hr
        exact .inr (.inr ⟨n, ofText_of_long hr, hlong, hdigits⟩)
  · exact result_query_eq_error_iff hs
  · rw [result_query_eq_error_iff hs, or_iff_left]
    rintro ⟨-, w, hf, hw⟩
    exact hw (withinDigits_of_found hn hf)
  · exact read_of_query hd ht
  · exact result_setPath_eq_error_iff hs hc

/-- A document that suppresses errors. -/
def lenient : Document where
  root := .object 0 [("a", .int 1)]
  next := 1
  suppressErrors := .ofBool true
  suppressDiagnostics := .ofBool true
  indent := .spaces 2
  index := none

theorem raised_of_suppressed_null :
    (lenient.suppressErrors.on = true ∧ lenient.value.Distinct ∧ lenient.value.WithinDigits) ∧
      (lenient.query (.string ".a")).result ≠ .error .tooLong ∧
      (lenient.setPath (.string ".") (.json .null)).result = .error .nullDocument ∧
      ∀ n, (lenient.setPath (.string ".") (.json .null)).result ≠ .error (.tooManyDigits n) := by
  have hd : lenient.value.Distinct := by
    have hint : (Value.int 1 : Json).Distinct := Value.distinct_of_mark?_eq_none rfl
    exact Value.distinct_object_iff.2 ⟨by decide, List.forall_mem_singleton.2 hint⟩
  have hn : lenient.value.WithinDigits := by
    have hint : (Value.int 1 : Json).WithinDigits := Value.withinDigits_int_iff.2 (by decide)
    exact Value.withinDigits_object_iff.2 (List.forall_mem_singleton.2 hint)
  have hroot : Path.parse "." = .ok [] := by decide +kernel
  obtain ⟨-, hpath⟩ := raised_of_suppressed .default ⟨none, none, none⟩
  obtain ⟨-, hquery, -, -⟩ := hpath lenient rfl hd ".a"
  obtain ⟨-, -, -, hset⟩ := hpath lenient rfl hd "."
  have hnull := (hset (.json .null) .null rfl .nullDocument).2 (.inl ⟨rfl, rfl, hroot⟩)
  refine ⟨⟨rfl, hd, hn⟩, fun h => ?_, hnull, fun n h => ?_⟩
  · obtain ⟨n, hlong, -⟩ := (hquery hn _).1 h
    cases hlong
  · cases hnull.symm.trans h

/-- The text of the least number with too many digits. -/
def longNumber : String := String.ofList (Nat.toDigits 10 (10 ^ Text.digitLimit))

/-- The path with this number for an index. -/
def longPath : String := Path.render [.index (10 ^ Text.digitLimit)]

/-- A document that suppresses errors and holds this number. -/
def burdened : Document where
  root := .object 0 [("a", .overlong)]
  next := 1
  suppressErrors := .ofBool true
  suppressDiagnostics := .ofBool true
  indent := .spaces 2
  index := none

/-- A text that is neither a document nor refused as an input, a path on which a document
raises an error that it should suppress, and a value on which it does. -/
theorem overlong_raised :
    (∃ n, ofText .default ⟨none, none, none⟩ (.string longNumber) = .error (.tooManyDigits n) ∧
        ¬(Error.tooManyDigits n).InvalidInput) ∧
      lenient.suppressErrors.on = true ∧
      ∃ n, (lenient.query (.string longPath)).result = .error (.tooManyDigits n) ∧
        (lenient.setPath (.string longPath) (.json (.bool true))).result =
          .error (.tooManyDigits n) ∧
        burdened.suppressErrors.on = true ∧
        (burdened.query (.string ".a")).result = .error .tooLong := by
  have hindex : ¬(Step.index (10 ^ Text.digitLimit)).Writable := fun h =>
    Nat.lt_irrefl _ (Path.writable_index_iff.1 h)
  refine ⟨⟨_, ofText_of_long (Json.read_long (Nat.lt_of_not_le hindex)), id⟩, rfl, ?_⟩
  have hnamed : ∀ s ∈ [Step.index (10 ^ Text.digitLimit)], s.Named :=
    List.forall_mem_singleton.2 trivial
  have hnot : ¬∀ s ∈ [Step.index (10 ^ Text.digitLimit)], s.Writable := fun h =>
    hindex (h _ (List.mem_singleton_self _))
  obtain ⟨n, hn⟩ := Path.overlong_render hnamed hnot
  exact ⟨n, (result_query_eq_error_iff rfl).2 (.inl ⟨n, rfl, hn⟩),
    (result_setPath_eq_error_iff rfl rfl).2 (.inr ⟨n, rfl, hn⟩), rfl,
    (result_query_eq_error_iff rfl).2 (.inr ⟨rfl, .overlong, rfl, Value.not_withinDigits_overlong⟩)⟩

end Document

end JsonPaths
