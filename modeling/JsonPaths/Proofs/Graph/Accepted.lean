/-
JsonPaths/Proofs/Graph/Accepted.lean

What the check of a value graph accepts.

A graph spells out one value at a node or none (`Spells.unique`), and where it spells out
a value nothing at or below the node is faulty, however often a container occurs
(`Spells.clear`).  So the check accepts a node exactly if the graph spells out a value
there, and makes that value (`check_eq_ok_iff`).  The nodes that are added for a JSON value
spell it out, so that a value that is handed over as JSON is what a check of its nodes
would make of it (`Candidate.check_toGraph`).  All that the check does to a graph is
`copy_exact`.
-/
import JsonPaths.Proofs.Document.PlainUpdate
import JsonPaths.Proofs.Graph.Copy
import JsonPaths.Proofs.Graph.Laying
import JsonPaths.Proofs.Graph.Unfold

namespace JsonPaths

namespace Graph

variable {g : Graph} {above : List Nat} {i : Nat} {v w : Json}

/-! ### One value at a node -/

/-- A graph spells out one value at a node. -/
theorem Spells.unique (hv : g.Spells i v) (hw : g.Spells i w) : v = w := by
  obtain ⟨a, ha, rfl⟩ := hv.exists_unfolds
  obtain ⟨b, hb, rfl⟩ := hw.exists_unfolds
  rw [ha.unique hb]

/-! ### No faults -/

/-- The kind of a node is the kind of the value that is spelled out there. -/
theorem Spells.kind (hv : g.Spells i v) : (g.node i).kind = .ok v.kind := by
  cases hv with
  | null hn | bool hn | int hn | double hn | string hn | array hn | object hn => rw [hn]; rfl

/-- A node where a value is spelled out is not faulty unless it is below itself. -/
theorem Spells.not_faulty (hv : g.Spells i v) (hi : i ∉ above) (π : Problem) :
    ¬g.Faulty above i π := by
  intro hf
  cases hf with
  | unsupported hk => cases hv.kind.symm.trans hk
  | arrayCycle _ ha | objectCycle _ ha => exact hi ha
  | @badKey pre k j post hn _ _ hk =>
    -- all keys of an object that is spelled out are texts
    cases hv with
    | object hn' hkeys =>
      obtain rfl := Node.object.inj (hn.symm.trans hn')
      have hmem : k ∈ (pre ++ (k, j) :: post).map Prod.fst := by simp
      rw [hkeys] at hmem
      obtain ⟨p, -, hp⟩ := List.mem_map.1 hmem
      exact hk p.1 hp.symm
    | null hn' | bool hn' | int hn' | double hn' | string hn' | array hn' =>
      cases hn.symm.trans hn'

/-- **Where a value is spelled out nothing is faulty**, however often a container occurs. -/
theorem Spells.clear (hv : g.Spells i v) : g.Clear [] i := by
  obtain ⟨u, hu, rfl⟩ := hv.exists_unfolds
  refine hu.descend (P := fun _ above i _ => g.Clear above i) ?scalar ?array ?object
    (Nat.lt_succ_self _)
  case scalar =>
    intro _ above i u h hi
    refine clear_iff.2 ⟨(Unfolds.scalar h).spells.not_faulty hi, ?_⟩
    cases hn : g.node i with
    | array | object => rw [hn] at h; cases h
    | _ => rw [children, hn]; exact List.forall_mem_nil _
  case array =>
    intro _ above i is vs hn hi h
    have hu := (unfolds_array hn (h.imp fun _ _ h => h.1)).spells
    refine clear_iff.2 ⟨hu.not_faulty hi, ?_⟩
    rw [children, hn]
    exact h.forall_left fun _ _ h => h.2
  case object =>
    intro _ above i ms vs hn hi h
    have hu := (unfolds_object hn (h.imp fun _ _ h => ⟨h.1, h.2.1⟩)).spells
    refine clear_iff.2 ⟨hu.not_faulty hi, ?_⟩
    rw [children, hn]
    exact List.forall_mem_map.2 (h.forall_left fun _ _ h => h.2.2)

/-- **The check accepts a node exactly if a value is spelled out there.** -/
theorem check_eq_ok_iff (hg : g.KeysDistinct) : g.check i = .ok v ↔ g.Spells i v := by
  rcases copy_cases hg i with ⟨w, hw, -, hcopy⟩ | ⟨π, hπ, hcopy⟩
  · rw [check, hcopy]
    show Except.ok (w.withMarks _).1.erase = _ ↔ _
    rw [Value.erase_json_withMarks, Except.ok.injEq]
    exact ⟨fun e => e ▸ hw, hw.unique⟩
  · rw [check, hcopy]
    constructor
    · intro h
      cases h
    · intro hv
      exact absurd hv.clear hπ.not_clear

end Graph

/-! ### Candidates -/

namespace Candidate

/-- **A candidate is checked as the graph that it is**, also where it is handed over as
JSON. -/
theorem check_toGraph {c : Candidate} (hc : ∀ v, c = .json v → v.Distinct) :
    c.toGraph.2.check c.toGraph.1 = c.check := by
  cases c with
  | graph g root => rfl
  | json v =>
    have hadded := Graph.added_addJson .empty v
    have hg : (Graph.empty.addJson v).2.KeysDistinct :=
      hadded.keysDistinct (fun i ms hi => by simp [Graph.node, Graph.empty] at hi)
        (List.forall_mem_singleton.2 (hc v rfl))
    cases hadded.spells _ (.refl _) with
    | cons hspells _ => exact (Graph.check_eq_ok_iff hg).2 hspells

end Candidate

/-! ### The main result -/

namespace Graph

theorem ofProblem_eq_iff {role : Role} {π : Problem} {e : Error} :
    Error.ofProblem role π = e ↔
      π ≠ .unshownKey ∧ e = .notJson role π ∨ π = .unshownKey ∧ e = .tooLong := by
  cases π <;> simp [Error.ofProblem, eq_comm]

/-- **Checking is exact and copies.**  The walk ends.  It succeeds exactly if no node that
is met in pre-order is faulty, and otherwise comes to the first fault, which is reported
as such unless it is a key that cannot be shown.  What the walk makes is what the graph
spells out; no container of it is one of the graph, and none is at two positions.  A value
that is handed over as JSON is left as it is, as the walk would leave it. -/
theorem copy_exact (hg : g.KeysDistinct) (i : Nat) :
    g.Ends (.start g i) (g.copy i) ∧
      ((∃ c, g.copy i = .ok c) ↔ g.Clear [] i) ∧
      (∀ π, g.copy i = .error π ↔ g.FirstFault [] i π) ∧
      (∀ role e, Document.checked role (.graph g i) = .error e ↔
        ∃ π, g.FirstFault [] i π ∧
          (π ≠ .unshownKey ∧ e = .notJson role π ∨ π = .unshownKey ∧ e = .tooLong)) ∧
      (∀ c, g.copy i = .ok c → g.Spells i c ∧ (∀ m ∈ c.marks, g.nodes.size ≤ m) ∧
        c.Unshared ∧ ∀ role, Document.checked role (.graph g i) = .ok c.erase) ∧
      ∀ v : Json, v.Distinct → ∀ role, Document.checked role (.json v) =
        Document.checked role (.graph (empty.addJson v).2 (empty.addJson v).1) := by
  have herror : ∀ π, g.copy i = .error π ↔ g.FirstFault [] i π := by
    intro π
    rcases copy_cases hg i with ⟨v, -, hclear, hcopy⟩ | ⟨π', hπ', hcopy⟩
    · rw [hcopy, iff_false_right fun hπ => hπ.not_clear hclear]
      simp
    · rw [hcopy, Except.error.injEq]
      constructor
      · rintro rfl
        exact hπ'
      · exact fun hπ => hπ'.unique hπ
  refine ⟨ends_run g _, ?_, herror, fun role e => ?_, fun c hc => ?_, fun v hv role => ?_⟩
  · rcases copy_cases hg i with ⟨v, -, hclear, hcopy⟩ | ⟨π, hπ, hcopy⟩
    · exact iff_of_true ⟨_, hcopy⟩ hclear
    · rw [iff_false_right hπ.not_clear, hcopy]
      simp
  · rw [Document.checked, Candidate.check, check]
    cases hcopy : g.copy i with
    | ok c =>
      have hno : ¬∃ π, g.FirstFault [] i π ∧
          (π ≠ .unshownKey ∧ e = .notJson role π ∨ π = .unshownKey ∧ e = .tooLong) := by
        rintro ⟨π, hπ, -⟩
        cases hcopy.symm.trans ((herror π).2 hπ)
      rw [iff_false_right hno]
      intro h
      cases h
    | error π =>
      have hfirst := (herror π).1 hcopy
      show Except.error (Error.ofProblem role π) = _ ↔ _
      rw [Except.error.injEq, ofProblem_eq_iff]
      constructor
      · exact fun h => ⟨π, hfirst, h⟩
      · rintro ⟨π', hπ', h⟩
        obtain rfl := hπ'.unique hfirst
        exact h
  · rcases copy_cases hg i with ⟨v, hv, -, hcopy⟩ | ⟨π, -, hcopy⟩
    · obtain rfl := Except.ok.inj (hcopy.symm.trans hc)
      refine ⟨?_, fun m hm => ?_, ?_, fun role => ?_⟩
      · apply Spells.of_erase
        rwa [Value.erase_json_withMarks]
      · have := (Value.mem_marks_withMarks.1 hm).1
        omega
      · exact Value.unshared_of_nodup (Value.nodup_marks_withMarks v _)
      · rw [Document.checked, Candidate.check, check, hc]
        rfl
    · cases hcopy.symm.trans hc
  · have hcheck := (Candidate.json v).check_toGraph fun w hw => Candidate.json.inj hw ▸ hv
    rw [Document.checked, ← hcheck]
    rfl

/-- An object with one array under two keys is copied; an array that holds itself behind a
text is refused. -/
theorem copy_exact_shared :
    (∃ c, (Graph.mk #[.object [(.text "a", 1), (.text "b", 1)], .array []]).copy 0 = .ok c ∧
        c.Unshared) ∧
      (Graph.mk #[.array [1, 0], .string "x"]).copy 0 = .error .cycle := by
  constructor
  · let g : Graph := ⟨#[.object [(.text "a", 1), (.text "b", 1)], .array []]⟩
    have hg : g.KeysDistinct := by
      intro i ms h
      rcases i with _ | _ | i <;> simp [g, node] at h
      subst h
      refine List.pairwise_cons.2 ⟨fun q hq => ?_, List.pairwise_singleton ..⟩
      rw [List.mem_singleton.1 hq]
      decide
    have hroot : ∀ π, ¬g.Faulty [] 0 π := by
      intro π h
      have htake : g.take ⟨[], [], .null, 2⟩ (.visit 0 ⟨2, .index 0⟩) = .error π :=
        take_visit_eq_error.2 h
      cases htake
    have hinner : g.Clear [0] 1 := by
      refine clear_iff.2 ⟨fun π h => ?_, List.forall_mem_nil _⟩
      cases h <;> simp_all [g, node, Node.kind]
    have hclear : g.Clear [] 0 := by
      refine clear_iff.2 ⟨hroot, fun j hj => ?_⟩
      obtain rfl : j = 1 := by simpa [g, children, node] using hj
      exact hinner
    obtain ⟨-, hok, -, -, hcopy, -⟩ := copy_exact hg 0
    obtain ⟨c, hc⟩ := hok.2 hclear
    exact ⟨c, hc, (hcopy c hc).2.2.1⟩
  · let g : Graph := ⟨#[.array [1, 0], .string "x"]⟩
    have hg : g.KeysDistinct := by
      intro i ms h
      rcases i with _ | _ | i <;> simp [g, node] at h
    have hroot : ∀ π, ¬g.Faulty [] 0 π := by
      intro π h
      cases h <;> simp_all [g, node, Node.kind]
    have hbelow : g.FirstFault [0] 0 .cycle :=
      firstFault_of_faulty (.arrayCycle rfl List.mem_cons_self)
    obtain ⟨-, -, herror, -⟩ := copy_exact hg 0
    refine (herror .cycle).2 (firstFault_of_child (k := 1) hroot rfl hbelow fun k' j' hk' hj' => ?_)
    obtain rfl : k' = 0 := by omega
    obtain rfl : j' = 1 := by simpa [g, children, node] using hj'.symm
    refine clear_iff.2 ⟨fun π h => ?_, List.forall_mem_nil _⟩
    cases h <;> simp_all [g, node, Node.kind]

/-- An object with one key. -/
def keyed (k : Key) : Graph := ⟨#[.object [(k, 1)], .int 0]⟩

theorem keysDistinct_keyed (k : Key) : (keyed k).KeysDistinct := by
  intro i ms h
  rcases i with _ | _ | i <;> simp [keyed, node] at h
  exact h ▸ List.pairwise_singleton ..

/-- The key that is no text is the first fault. -/
theorem firstFault_keyed {k : Key} (hk : ∀ s, k ≠ .text s) :
    (keyed k).FirstFault [] 0 (.ofKey k) := by
  have hnode : (keyed k).node 0 = .object ([] ++ (k, 1) :: []) := rfl
  exact firstFault_of_faulty (.badKey hnode List.not_mem_nil nofun hk)

/-- A whole number with too many digits to be shown is the first fault where it is a key, and
yet it is not reported as a fault of the value. -/
theorem checked_overlongKey :
    (keyed (.int (10 ^ Text.digitLimit : Nat))).FirstFault [] 0 .unshownKey ∧
      Document.ofCandidate .default ⟨none, none, none⟩
        (.graph (keyed (.int (10 ^ Text.digitLimit : Nat))) 0) = .error .tooLong := by
  have hproblem : Problem.ofKey (.int (10 ^ Text.digitLimit : Nat)) = .unshownKey := by
    rw [Problem.ofKey, Key.shown, Text.intText?_overlong]
  have hfirst := firstFault_keyed (k := .int (10 ^ Text.digitLimit : Nat)) nofun
  rw [hproblem] at hfirst
  refine ⟨hfirst, ?_⟩
  rcases copy_cases (keysDistinct_keyed _) 0 with ⟨-, -, hclear, -⟩ | ⟨π, hπ, hcopy⟩
  · exact absurd hclear hfirst.not_clear
  · obtain rfl := hπ.unique hfirst
    rw [Document.ofCandidate, Document.checked, Candidate.check, check, hcopy]
    rfl

end Graph

end JsonPaths
