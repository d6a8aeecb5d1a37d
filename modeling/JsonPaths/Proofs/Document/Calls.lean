/-
JsonPaths/Proofs/Document/Calls.lean

Calls on documents, and the documents that they lead to.

`Document.call` is what a caller can do with a document, one operation at a
time, with whatever arguments.  A document is reachable if a constructor makes
it or a call on a reachable document leaves it behind, whether the call
succeeds or not.  Only an assignment changes what a document holds, and it
leaves everything as it was unless it returns true (`setPath_cases`); an
invariant is therefore shown for fresh documents and for assignments
(`ReachableBy.invariant`).
-/
import JsonPaths.Session
import JsonPaths.Proofs.Json.Writer
import JsonPaths.Proofs.Path.Written

namespace JsonPaths

/-! ### Calls -/

/-- What a caller can do with a document. -/
inductive Call where
  | query (path : Json)
  | set (path : Json) (value : Candidate)
  | paths
  | find (value : Candidate)
  | flags (options : Options)

/-! ### Values that have no text -/

namespace Error

theorem orTooLong_of_some {α : Type} {o : Option α} {a : α} (h : o = some a) :
    orTooLong o = .ok a := h ▸ rfl

theorem orTooLong_of_none {α : Type} {o : Option α} (h : o = none) :
    orTooLong o = .error .tooLong := h ▸ rfl

/-- A search for a value that has a text fails with a setback that shows the value. -/
theorem absent_of_withinDigits {v : Json} (h : v.WithinDigits) :
    ∃ s, v.shown = some s ∧ absent v = .setback (.absent v s) := by
  obtain ⟨s, hs⟩ := v.exists_shown_iff.2 h
  exact ⟨s, hs, by rw [absent, hs]⟩

/-- A search for any other value fails with an error that is no setback. -/
theorem absent_of_not_withinDigits {v : Json} (h : ¬v.WithinDigits) : absent v = .tooLong := by
  rw [absent, v.shown_eq_none_iff.2 h]

end Error

namespace Outcome

/-- The outcome with another answer. -/
def map {α β : Type} (f : α → β) (o : Outcome α) : Outcome β :=
  ⟨o.result.map f, o.document, o.log⟩

end Outcome

namespace Document

/-- What a call comes to. -/
def call (d : Document) : Call → Outcome Reply
  | .query path => (d.query path).map .text
  | .set path c => (d.setPath path c).map .truth
  | .paths => d.paths.map .index
  | .find c => (d.find c).map .names
  | .flags options => (Session.changeFlags options d).done .nothing

/-! ### What calls do to a document -/

@[simp] theorem document_settle {α : Type} (d : Document) (operation subject : String)
    (fallback : α) (e : Error) : (d.settle operation subject fallback e).document = d := by
  cases e <;> rfl

theorem document_query (d : Document) (path : Json) : (d.query path).document = d := by
  unfold query
  dsimp only
  split
  · rfl
  · exact document_settle ..

theorem root_find (d : Document) (c : Candidate) :
    (d.find c).document.root = d.root ∧ (d.find c).document.next = d.next := by
  unfold find
  split
  · unfold findJson
    split
    · split
      · exact ⟨rfl, rfl⟩
      · rw [document_settle]
        exact ⟨rfl, rfl⟩
    · exact ⟨rfl, rfl⟩
  · exact ⟨rfl, rfl⟩

theorem result_settle_ne {d : Document} {operation subject : String} {e : Error} :
    (d.settle operation subject false e).result ≠ .ok true := by
  unfold settle
  split
  · dsimp only
    split <;> simp
  · simp

theorem checked_of_check {role : Role} {c : Candidate} {v : Json} (h : c.check = .ok v) :
    checked role c = .ok v := by
  rw [checked, h]
  rfl

theorem checked_of_refused {role : Role} {c : Candidate} {p : Graph.Problem}
    (h : c.check = .error p) : checked role c = .error (.ofProblem role p) := by
  rw [checked, h]
  rfl

theorem setPath_of_check {d : Document} {path : Json} {c : Candidate} {v : Json}
    (h : c.check = .ok v) : d.setPath path c = d.setJson path v := by
  rw [setPath, checked_of_check h]

/-- A value that is refused is refused before the path is read. -/
theorem setPath_of_refused {d : Document} {path : Json} {c : Candidate} {p : Graph.Problem}
    (h : c.check = .error p) : d.setPath path c = ⟨.error (.ofProblem .assigned p), d, []⟩ := by
  rw [setPath, checked_of_refused h]

/-- An assignment goes through as a whole or changes nothing. -/
theorem setPath_cases (d : Document) (path : Json) (c : Candidate) :
    (∃ v steps e, c.check = .ok v ∧ Path.ofJson path = .ok steps ∧
        d.assigned steps v = .ok e ∧ (d.setPath path c).result = .ok true ∧
        (d.setPath path c).document = e) ∨
      ((d.setPath path c).result ≠ .ok true ∧ (d.setPath path c).document = d) := by
  cases hc : c.check with
  | error p =>
    rw [setPath_of_refused hc]
    exact .inr ⟨nofun, rfl⟩
  | ok v =>
    rw [setPath_of_check hc, setJson]
    cases hp : Path.ofJson path with
    | error e => exact .inr ⟨result_settle_ne, document_settle ..⟩
    | ok steps =>
      cases ha : d.assigned steps v with
      | error e =>
        simp only [bind, Except.bind, ha]
        exact .inr ⟨result_settle_ne, document_settle ..⟩
      | ok e => exact .inl ⟨v, steps, e, rfl, rfl, ha, by simp [bind, Except.bind, ha]⟩

/-- An assignment that nothing stops goes through. -/
theorem setPath_of_assigned {d e : Document} {path : Json} {c : Candidate} {v : Json}
    {steps : List Step} (hc : c.check = .ok v) (hp : Path.ofJson path = .ok steps)
    (ha : d.assigned steps v = .ok e) :
    (d.setPath path c).result = .ok true ∧ (d.setPath path c).document = e := by
  rw [setPath_of_check hc, setJson, hp]
  simp only [bind, Except.bind, ha, and_self]

/-- What is assigned has the marks from `next` on.  Without a step it becomes the
root, and otherwise it is put into the slots of the path. -/
theorem assigned_eq_ok {d e : Document} {steps : List Step} {v : Json}
    (h : d.assigned steps v = .ok e) :
    e = { d with root := e.root, next := (v.withMarks d.next).2, index := none } ∧
      (steps = [] ∧ v ≠ .null ∧ e.root = (v.withMarks d.next).1 ∨
        ∃ slots, d.root.target steps = .ok slots ∧
          e.root = Value.write slots (v.withMarks d.next).1 d.root) := by
  cases steps with
  | nil =>
    cases v <;> simp only [assigned, Except.ok.injEq, reduceCtorEq] at h <;> subst h <;>
      exact ⟨rfl, .inl ⟨rfl, by simp, rfl⟩⟩
  | cons s ss =>
    simp only [assigned, Value.assign] at h
    cases ht : d.root.target (s :: ss) with
    | error o => simp [ht, Except.map] at h
    | ok slots =>
      simp only [ht, Except.map, Except.ok.injEq] at h
      subst h
      exact ⟨rfl, .inr ⟨slots, rfl, rfl⟩⟩

/-! ### Reachable documents -/

/-- Documents that allowed calls lead to from a constructor.  The values that are
given to a constructor may be restricted too; texts are always allowed. -/
inductive ReachableBy (given : Candidate → Prop) (allowed : Document → Call → Prop) :
    Document → Prop
  | ofCandidate {config : Config} {options : Options} {c : Candidate} {d : Document} :
      given c → Document.ofCandidate config options c = .ok d → ReachableBy given allowed d
  | ofText {config : Config} {options : Options} {text : Json} {d : Document} :
      Document.ofText config options text = .ok d → ReachableBy given allowed d
  | ofFile {config : Config} {options : Options} {files : Directory.Entries}
      {place : Location} {d : Document} :
      (Document.ofFile config options files place).1 = .ok d → ReachableBy given allowed d
  | call {d : Document} (c : Call) :
      ReachableBy given allowed d → allowed d c → ReachableBy given allowed (d.call c).document

/-- Documents that any calls lead to from any constructor. -/
abbrev Reachable : Document → Prop := ReachableBy (fun _ => True) fun _ _ => True

theorem ofJson_eq_ok {config : Config} {options : Options} {v : Json} {d : Document}
    (h : ofJson config options v = .ok d) :
    d.root = (v.withMarks 0).1 ∧ d.next = (v.withMarks 0).2 := by
  unfold ofJson at h
  split at h
  · cases h
  · cases h
    exact ⟨rfl, rfl⟩

theorem index_of_ofJson {config : Config} {options : Options} {v : Json} {d : Document}
    (h : ofJson config options v = .ok d) : d.index = none := by
  unfold ofJson at h
  split at h
  · cases h
  · cases h
    rfl

/-- A candidate makes a document of the value that it spells out. -/
theorem ofCandidate_eq_ok {config : Config} {options : Options} {c : Candidate}
    {d : Document} (h : ofCandidate config options c = .ok d) :
    ∃ v, c.check = .ok v ∧ ofJson config options v = .ok d := by
  cases hc : c.check with
  | error p =>
    rw [ofCandidate, checked_of_refused hc] at h
    cases h
  | ok v =>
    rw [ofCandidate, checked_of_check hc] at h
    exact ⟨v, rfl, h⟩

/-- A text makes a document of a value that is read. -/
theorem ofText_eq_ok {config : Config} {options : Options} {text : Json} {d : Document}
    (h : ofText config options text = .ok d) :
    ∃ s v, Json.read s = .ok v ∧ ofJson config options v = .ok d := by
  unfold ofText at h
  split at h
  · split at h
    · exact ⟨_, _, ‹_›, h⟩
    · cases h
    · cases h
  · cases h

/-- A file makes a document of a value that is read. -/
theorem ofFile_eq_ok {config : Config} {options : Options} {files : Directory.Entries}
    {place : Location} {d : Document} (h : (ofFile config options files place).1 = .ok d) :
    ∃ s v, Json.read s = .ok v ∧ ofJson config options v = .ok d := by
  unfold ofFile at h
  split at h
  · cases h
  next v hv =>
  unfold fileValue at hv
  split at hv
  · cases hv
  · cases hv
  next s _ =>
  split at hv <;> try cases hv
  next hs => exact ⟨s, v, hs, h⟩

/-- Induction on reachable documents: whatever makes a document makes it of a value, one
that is given or one that is read. -/
theorem ReachableBy.ind {given : Candidate → Prop} {allowed : Document → Call → Prop}
    {motive : Document → Prop}
    (fresh : ∀ config options v d, (∃ c, given c ∧ c.check = .ok v) ∨ v.Distinct →
      ofJson config options v = .ok d → motive d)
    (call : ∀ d c, ReachableBy given allowed d → allowed d c → motive d →
      motive (d.call c).document)
    {d : Document} (hd : ReachableBy given allowed d) : motive d := by
  induction hd with
  | ofCandidate hg h =>
    obtain ⟨v, hc, h⟩ := ofCandidate_eq_ok h
    exact fresh _ _ v _ (.inl ⟨_, hg, hc⟩) h
  | ofText h =>
    obtain ⟨s, v, hs, h⟩ := ofText_eq_ok h
    exact fresh _ _ v _ (.inr (Json.distinct_of_read hs)) h
  | ofFile h =>
    obtain ⟨s, v, hs, h⟩ := ofFile_eq_ok h
    exact fresh _ _ v _ (.inr (Json.distinct_of_read hs)) h
  | call c hd ha ih => exact call _ c hd ha ih

/-- What is true of fresh documents and kept by assignments is true of all
reachable documents. -/
theorem ReachableBy.invariant {given : Candidate → Prop} {allowed : Document → Call → Prop}
    {I : Shared → Nat → Prop}
    (fresh : ∀ v : Json, (∃ c, given c ∧ c.check = .ok v) ∨ v.Distinct →
      I (v.withMarks 0).1 (v.withMarks 0).2)
    (assigned : ∀ d path c v steps e, ReachableBy given allowed d → I d.root d.next →
      allowed d (.set path c) → c.check = .ok v → Path.ofJson path = .ok steps →
      d.assigned steps v = .ok e → I e.root e.next)
    {d : Document} (hd : ReachableBy given allowed d) : I d.root d.next := by
  refine hd.ind (motive := fun d => I d.root d.next) ?_ ?_
  · intro config options v d hv h
    obtain ⟨hr, hn⟩ := ofJson_eq_ok h
    rw [hr, hn]
    exact fresh v hv
  · intro d c hd ha ih
    -- only an assignment that goes through changes the tree
    cases c with
    | query path =>
      show I (d.query path).document.root (d.query path).document.next
      rwa [document_query]
    | set path c =>
      show I (d.setPath path c).document.root (d.setPath path c).document.next
      rcases setPath_cases d path c with ⟨v, steps, e, hc, hp, he, -, hdoc⟩ | ⟨-, hdoc⟩
      · rw [hdoc]
        exact assigned d path c v steps e hd ih ha hc hp he
      · rwa [hdoc]
    | paths => exact ih
    | find c =>
      show I (d.find c).document.root (d.find c).document.next
      rwa [(root_find d c).1, (root_find d c).2]
    | flags options => exact ih

/-! ### Sound documents -/

/-- A mark in the tree stands for one container, and the marks that are still to
be given are not in use. -/
structure Sound (root : Shared) (next : Nat) : Prop where
  consistent : root.Consistent
  lt_next : ∀ m ∈ root.marks, m < next

theorem sound_withMarks (v : Json) (n : Nat) : Sound (v.withMarks n).1 (v.withMarks n).2 :=
  ⟨Value.consistent_withMarks v n, fun _ hm => (Value.mem_marks_withMarks.1 hm).2⟩

/-- Fresh marks are not in use. -/
theorem Sound.notMem_withMarks {root : Shared} {next m : Nat} (h : Sound root next) (v : Json)
    (hm : m ∈ root.marks) : m ∉ (v.withMarks next).1.marks := by
  intro hm'
  have := h.lt_next m hm
  have := (Value.mem_marks_withMarks.1 hm').1
  omega

/-- **An assignment leaves a sound document**, also where it puts one container
at several places. -/
theorem Sound.assigned {d e : Document} {steps : List Step} {v : Json}
    (h : Sound d.root d.next) (he : d.assigned steps v = .ok e) : Sound e.root e.next := by
  obtain ⟨hnext, ⟨-, -, hroot⟩ | ⟨slots, ht, hroot⟩⟩ := assigned_eq_ok he
  · rw [hnext, hroot]
    exact sound_withMarks v d.next
  · rw [hnext, hroot]
    constructor
    · have hfresh : ∀ m ∈ d.root.marks, m ∉ (v.withMarks d.next).1.marks := by
        intro m hm
        exact h.notMem_withMarks v hm
      have hat := h.consistent.slotsAt ht
      exact h.consistent.write (Value.consistent_withMarks v d.next) hfresh hat
    · intro m hm
      show m < (v.withMarks d.next).2
      rcases Value.mem_marks_write hm with hm | hm
      · have hlt := h.lt_next m hm
        have hle := (Value.marks_withMarks v d.next).2
        omega
      · exact (Value.mem_marks_withMarks.1 hm).2

/-- Every reachable document is sound. -/
theorem ReachableBy.sound {given : Candidate → Prop} {allowed : Document → Call → Prop}
    {d : Document} (h : ReachableBy given allowed d) : Sound d.root d.next :=
  h.invariant (fun v _ => sound_withMarks v 0) fun _ _ _ _ _ _ _ hs _ _ _ he =>
    hs.assigned he

end Document

end JsonPaths
