/-
JsonPaths/Proofs/Document/Flags.lean

The flags of a document govern reports and nothing else.

Two runs make the same calls on documents of one value, while each sets its flags as
it likes (`Lockstep`).  What a call comes to before it is reported depends on the
tree, on the marks in use and on the leaf index only, and these stay the same in
both runs (`Alike.after`).  So at every call both runs have the same verdict, and
each reports it by its own flags (`alike_but_for_reports`).
-/
import JsonPaths.Proofs.Document.Verdict

namespace JsonPaths.Document

/-! ### Documents alike but for their settings -/

/-- Two documents that may differ in their flags and their indentation only. -/
structure Alike (d e : Document) : Prop where
  root : d.root = e.root
  next : d.next = e.next
  index : d.index = e.index

namespace Alike

variable {d e : Document}

theorem value (h : d.Alike e) : d.value = e.value := congrArg Value.erase h.root

theorem indexed (h : d.Alike e) : d.indexed.Alike e.indexed :=
  ⟨h.root, h.next, congrArg (fun v : Json => some v.leafIndex) h.value⟩

theorem changeFlags (h : d.Alike e) (options options' : Options) :
    (Session.changeFlags options d).Alike (Session.changeFlags options' e) :=
  ⟨h.root, h.next, h.index⟩

/-- An assignment fails in both documents alike, or leaves them alike. -/
theorem assigned (h : d.Alike e) (steps : List Step) (v : Json) :
    (∃ x, d.assigned steps v = .error x ∧ e.assigned steps v = .error x) ∨
      ∃ d' e', d.assigned steps v = .ok d' ∧ e.assigned steps v = .ok e' ∧ d'.Alike e' := by
  cases steps with
  | nil =>
    by_cases hv : v = .null
    · subst hv
      exact .inl ⟨.nullDocument, rfl, rfl⟩
    · -- the new root has the marks from `next` on, which is the same in both
      have hok : ∀ d : Document, d.assigned [] v = .ok { d with
          root := (v.withMarks d.next).1, next := (v.withMarks d.next).2, index := none } := by
        intro d
        cases v <;> first | exact absurd rfl hv | rfl
      have hmarks : v.withMarks d.next = v.withMarks e.next := congrArg (v.withMarks ·) h.next
      refine .inr ⟨_, _, hok d, hok e, ?_⟩
      exact ⟨congrArg Prod.fst hmarks, congrArg Prod.snd hmarks, rfl⟩
  | cons s ss =>
    simp only [Document.assigned, h.root, h.next]
    cases e.root.assign (s :: ss) (v.withMarks e.next).1 with
    | error o => exact .inl ⟨_, rfl, rfl⟩
    | ok root => exact .inr ⟨_, _, rfl, rfl, ⟨rfl, rfl, rfl⟩⟩

theorem placed (h : d.Alike e) (path : Json) (c : Candidate) :
    (∃ x, d.placed path c = .error x ∧ e.placed path c = .error x) ∨
      ∃ d' e', d.placed path c = .ok d' ∧ e.placed path c = .ok e' ∧ d'.Alike e' := by
  unfold Document.placed
  cases checked .assigned c with
  | error x => exact .inl ⟨x, rfl, rfl⟩
  | ok v =>
    cases Path.ofJson path with
    | error x => exact .inl ⟨x, rfl, rfl⟩
    | ok steps => exact h.assigned steps v

/-- The flags have no part in what a call comes to. -/
theorem verdict (h : d.Alike e) (c : Call) : d.verdict c = e.verdict c := by
  cases c with
  | query path => simp only [Document.verdict, h.root]
  | set path c =>
    rcases h.placed path c with ⟨x, hd, he⟩ | ⟨d', e', hd, he, -⟩
    · simp only [Document.verdict, hd, he]
    · simp only [Document.verdict, hd, he, Except.map]
  | paths => simp only [Document.verdict, h.value]
  | find c => simp only [Document.verdict, h.value]
  | flags options => rfl

/-- **What is alike stays alike** when one call is made on both documents. -/
theorem after (h : d.Alike e) (c : Call) : (d.after c).Alike (e.after c) := by
  cases c with
  | query path => exact h
  | set path c =>
    rcases h.placed path c with ⟨x, hd, he⟩ | ⟨d', e', hd, he, h'⟩
    · simp only [Document.after, hd, he]
      exact h
    · simp only [Document.after, hd, he]
      exact h'
  | paths => exact h.indexed
  | find c =>
    show (if c.check.toOption.isSome then d.indexed else d).Alike
      (if c.check.toOption.isSome then e.indexed else e)
    split
    · exact h.indexed
    · exact h
  | flags options => exact h.changeFlags options options

theorem call (h : d.Alike e) (c : Call) : (d.call c).document.Alike (e.call c).document := by
  rw [document_call, document_call]
  exact h.after c

end Alike

theorem alike_ofJson {config config' : Config} {options options' : Options} {v : Json}
    {d e : Document} (hd : ofJson config options v = .ok d)
    (he : ofJson config' options' v = .ok e) : d.Alike e := by
  obtain ⟨hr, hn⟩ := ofJson_eq_ok hd
  obtain ⟨hr', hn'⟩ := ofJson_eq_ok he
  exact ⟨hr.trans hr'.symm, hn.trans hn'.symm,
    (index_of_ofJson hd).trans (index_of_ofJson he).symm⟩

/-! ### Two runs -/

/-- Two runs that start from one value and make the same calls.  Each sets its flags
as it likes, at the start and before every call. -/
inductive Lockstep : Document → Document → Prop
  | start {config config' : Config} {options options' : Options} {c : Candidate}
      {d e : Document} :
      Document.ofCandidate config options c = .ok d →
      Document.ofCandidate config' options' c = .ok e → Lockstep d e
  | flags {d e : Document} (options options' : Options) :
      Lockstep d e → Lockstep (Session.changeFlags options d) (Session.changeFlags options' e)
  | call {d e : Document} (c : Call) :
      Lockstep d e → Lockstep (d.call c).document (e.call c).document

theorem Lockstep.alike {d e : Document} (h : Lockstep d e) : d.Alike e := by
  induction h with
  | start hd he =>
    obtain ⟨v, hc, hd⟩ := ofCandidate_eq_ok hd
    obtain ⟨v', hc', he⟩ := ofCandidate_eq_ok he
    obtain rfl := Except.ok.inj (hc.symm.trans hc')
    exact alike_ofJson hd he
  | flags options options' _ ih => exact ih.changeFlags options options'
  | call c _ ih => exact ih.call c

/-! ### Reports -/

/-- A call is reported by the flags of its document.  An answer is given without a
warning.  A setback is raised exactly if errors are not suppressed, and a fallback is
answered otherwise; it is warned of once exactly if diagnostics are not suppressed.
Any other error is raised, without a warning. -/
def Reports (d : Document) (c : Call) : Except Error Reply → Prop
  | .ok r => (d.call c).result = .ok r ∧ ∀ x ∈ (d.call c).log, x.level ≠ Log.warning
  | .error (.setback s) =>
    (d.call c).result
        = (if d.suppressErrors.on then .ok c.fallback else .error (.setback s)) ∧
      (d.call c).log = if d.suppressDiagnostics.on then [] else [c.warning s]
  | .error e => (d.call c).result = .error e ∧ (d.call c).log = []

theorem level_of_mem_notes {c : Call} {x : Record} (h : x ∈ c.notes) :
    x.level ≠ Log.warning := by
  cases c with
  | set path c =>
    obtain rfl := List.mem_singleton.1 h
    show Log.debug ≠ Log.warning
    decide
  | _ => cases h

theorem reports_verdict (d : Document) (c : Call) : d.Reports c (d.verdict c) := by
  have hcall := call_eq_reported d c
  cases hv : d.verdict c with
  | ok r =>
    rw [hv] at hcall
    refine ⟨congrArg Outcome.result hcall, fun x hx => ?_⟩
    rw [hcall] at hx
    exact level_of_mem_notes hx
  | error x =>
    rw [hv] at hcall
    cases x with
    | setback s => exact ⟨congrArg Outcome.result hcall, congrArg Outcome.log hcall⟩
    | _ => exact ⟨congrArg Outcome.result hcall, congrArg Outcome.log hcall⟩

/-- **The flags change only how failures are reported.**  Two runs in lock step have
the same value and the same leaf index before and after every call; the call comes to
the same in both, and each of them reports it by its own flags. -/
theorem alike_but_for_reports {d e : Document} (h : Lockstep d e) (c : Call) :
    (d.value = e.value ∧ d.index = e.index) ∧
      ((d.call c).document.value = (e.call c).document.value ∧
        (d.call c).document.index = (e.call c).document.index) ∧
      ∃ verdict, d.verdict c = verdict ∧ e.verdict c = verdict ∧
        d.Reports c verdict ∧ e.Reports c verdict := by
  have hbefore := h.alike
  have hafter := (h.call c).alike
  have hverdict := hbefore.verdict c
  refine ⟨⟨hbefore.value, hbefore.index⟩, ⟨hafter.value, hafter.index⟩, d.verdict c, rfl,
    hverdict.symm, reports_verdict d c, ?_⟩
  rw [hverdict]
  exact reports_verdict e c

/-- A document of one member that reports every setback. -/
def loud : Document where
  root := .object 0 [("a", .int 1)]
  next := 1
  suppressErrors := .ofBool false
  suppressDiagnostics := .ofBool false
  indent := .spaces 2
  index := none

/-- The settings that keep every setback quiet. -/
def quiet : Options := ⟨some (.ofBool true), some (.ofBool true), none⟩

theorem lockstep_quiet : Lockstep loud (Session.changeFlags quiet loud) :=
  have hloud : Document.ofCandidate .default ⟨none, none, some (.spaces 2)⟩
      (.json (.object () [("a", .int 1)])) = .ok loud := rfl
  .flags ⟨none, none, none⟩ quiet (.start hloud hloud)

/-- A member that is missing: one run raises and warns, and the other answers with
the empty text. -/
theorem alike_but_for_reports_missing :
    (loud.verdict (.query (.string ".b")) = .error (.setback (.unresolved [.field "b"] 0)) ∧
      (Session.changeFlags quiet loud).suppressErrors.on = true) ∧
      ∃ verdict, loud.verdict (.query (.string ".b")) = verdict ∧
        (Session.changeFlags quiet loud).verdict (.query (.string ".b")) = verdict ∧
        loud.Reports (.query (.string ".b")) verdict ∧
        (Session.changeFlags quiet loud).Reports (.query (.string ".b")) verdict :=
  ⟨⟨rfl, rfl⟩, (alike_but_for_reports lockstep_quiet (.query (.string ".b"))).2.2⟩

end JsonPaths.Document
