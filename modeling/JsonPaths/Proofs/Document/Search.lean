/-
JsonPaths/Proofs/Document/Search.lean

Searching a document for a value.

A search builds the leaf index and lists the paths of the leaves that equal the value;
it fails if there is none, with a setback that names the value unless the value has no
text (`verdict_find_eq_absent`).  In a document whose keys are names of the path grammar
these paths are canonical, and each leads to its leaf, so that the search is sound and
complete (`find_sound_complete`).  With other keys two leaves can have
one text, and the search sees the later one only (`find_of_kept`): what the earlier one
holds may be lost (`leaf_lost`).
-/
import JsonPaths.Proofs.Document.Flags
import JsonPaths.Proofs.Document.LeafUpdate
import JsonPaths.Proofs.Value.Search

namespace JsonPaths.Document

variable {d : Document} {c : Candidate} {v : Json}

/-! ### What a search comes to -/

theorem verdict_find (hc : c.check = .ok v) :
    d.verdict (.find c) = match d.value.leafIndex.find v with
      | [] => .error (.absent v)
      | ps => .ok (.names ps) := by
  rw [verdict, checked_of_check hc]
  rfl

theorem verdict_find_eq_ok (hc : c.check = .ok v) (h : d.value.leafIndex.find v ≠ []) :
    d.verdict (.find c) = .ok (.names (d.value.leafIndex.find v)) := by
  rw [verdict_find hc]
  obtain ⟨p, ps, e⟩ := List.exists_cons_of_ne_nil h
  rw [e]

theorem verdict_find_of_nil (hc : c.check = .ok v) (h : d.value.leafIndex.find v = []) :
    d.verdict (.find c) = .error (.absent v) := by
  rw [verdict_find hc, h]

/-- A search that finds nothing is a setback if the value has a text. -/
theorem verdict_find_eq_absent (hc : c.check = .ok v) :
    (∃ shown, v.shown = some shown ∧
        d.verdict (.find c) = .error (.setback (.absent v shown))) ↔
      v.WithinDigits ∧ d.value.leafIndex.find v = [] := by
  constructor
  · rintro ⟨shown, hshown, h⟩
    refine ⟨v.exists_shown_iff.1 ⟨shown, hshown⟩, ?_⟩
    by_contra hne
    rw [verdict_find_eq_ok hc hne] at h
    cases h
  · rintro ⟨hn, h⟩
    obtain ⟨shown, hshown, habsent⟩ := Error.absent_of_withinDigits hn
    exact ⟨shown, hshown, by rw [verdict_find_of_nil hc h, habsent]⟩

/-- A search that finds nothing is no setback if the value has no text. -/
theorem verdict_find_eq_tooLong (hc : c.check = .ok v) :
    d.verdict (.find c) = .error .tooLong ↔
      ¬v.WithinDigits ∧ d.value.leafIndex.find v = [] := by
  by_cases h : d.value.leafIndex.find v = []
  · rw [verdict_find_of_nil hc h]
    by_cases hn : v.WithinDigits
    · obtain ⟨shown, -, habsent⟩ := Error.absent_of_withinDigits hn
      simp [habsent, hn]
    · simp [Error.absent_of_not_withinDigits hn, hn, h]
  · rw [verdict_find_eq_ok hc h]
    exact iff_of_false nofun fun h' => h h'.2

theorem ReachableBy.distinct_value {allowed : Document → Call → Prop}
    (ha : ∀ d c, allowed d c → c.Proper) (h : ReachableBy Candidate.Proper allowed d) :
    d.value.Distinct :=
  Value.distinct_erase.2 (h.distinct ha)

/-! ### Keys that are names -/

/-- **The search of a value is sound and complete.**  Let the keys of a document be names
of the path grammar, and let `qs` be the positions of the leaves that equal a value, in
depth-first order.  The paths of these are what the search answers, each once.  If there is
none, as for a container that holds something and for NaN, the search fails: with the
setback that names the value if the value has a text, and otherwise with an error that is
none.  The path of every position is read back to it, unless a place in it has too many
digits, and leads to the value there. -/
theorem find_sound_complete (hd : d.ProperReachable) (he : d.value.Expressible)
    (hc : c.check = .ok v) :
    ∃ qs : List (List Step),
      (∀ q, q ∈ qs ↔ ∃ w, d.value.at? q = some w ∧ w.IsLeaf ∧ w.equal v = true) ∧
      qs.Pairwise d.value.Precedes ∧ (qs.map Path.render).Nodup ∧
      (∀ q w, d.value.at? q = some w →
        (Path.parse (Path.render q) = .ok q ↔ ∀ s ∈ q, s.Writable) ∧
          d.value.query q = .ok w) ∧
      d.Reports (.find c) (d.verdict (.find c)) ∧
      (qs ≠ [] → d.verdict (.find c) = .ok (.names (qs.map Path.render))) ∧
      ((∃ shown, v.shown = some shown ∧
          d.verdict (.find c) = .error (.setback (.absent v shown))) ↔
        v.WithinDigits ∧ ∀ q w, d.value.at? q = some w → w.IsLeaf → w.equal v = false) ∧
      (d.verdict (.find c) = .error .tooLong ↔
        ¬v.WithinDigits ∧ ∀ q w, d.value.at? q = some w → w.IsLeaf → w.equal v = false) ∧
      (¬v.IsLeaf ∨ v = .double .nan →
        ∀ q w, d.value.at? q = some w → w.IsLeaf → w.equal v = false) := by
  have hdist : d.value.Distinct := hd.distinct_value fun _ _ h => h
  have hfind := Value.find_eq_map hdist he v
  have hnil : d.value.leafIndex.find v = [] ↔
      ∀ q w, d.value.at? q = some w → w.IsLeaf → w.equal v = false := by
    rw [hfind, List.map_eq_nil_iff, List.eq_nil_iff_forall_not_mem]
    refine forall_congr' fun q => ?_
    simp only [Value.mem_positionsOf hdist, not_exists, not_and, Bool.not_eq_true]
  refine ⟨d.value.positionsOf v, fun q => Value.mem_positionsOf hdist,
    Value.pairwise_positionsOf d.value v, hfind ▸ Value.nodup_find hdist he v, ?_,
    reports_verdict d (.find c), fun hne => ?_, ?_, ?_, fun hv q w _ hw => ?_⟩
  · intro q w hq
    have hquery := Value.query_of_at? hq
    rw [Value.erase_json] at hquery
    exact ⟨Path.parse_render_iff (Value.named_of_at? he hq), hquery⟩
  · rw [← hfind]
    refine verdict_find_eq_ok hc fun hnil => hne ?_
    rwa [hfind, List.map_eq_nil_iff] at hnil
  · rw [verdict_find_eq_absent hc, hnil]
  · rw [verdict_find_eq_tooLong hc, hnil]
  · rcases hv with hv | rfl
    · exact Value.equal_of_not_isLeaf hw hv
    · exact Value.equal_nan w

/-- A whole number finds the leaves that hold it, and the truth value finds none. -/
theorem find_sound_complete_pair :
    (pair.ProperReachable ∧ pair.value.Expressible) ∧
      pair.verdict (.find (.json (.int 1))) = .ok (.names [".[0].a", ".[1].a"]) ∧
      ∃ shown, pair.verdict (.find (.json (.bool true))) =
        .error (.setback (.absent (.bool true) shown)) := by
  refine ⟨⟨properReachable_pair, expressible_pair⟩, ?_, ?_⟩
  · rw [verdict_find rfl, leafIndex_pair]
    rfl
  · obtain ⟨-, -, -, -, -, -, -, habsent, -⟩ := find_sound_complete
      (c := .json (.bool true)) properReachable_pair expressible_pair rfl
    have hn : (Value.bool true : Json).WithinDigits := Value.withinDigits_of_atom rfl nofun
    obtain ⟨shown, -, h⟩ := habsent.2 ⟨hn, fun q w hq hw => by
      have hmem := List.mem_map_of_mem (f := fun l => (Path.render l.1, l.2))
        (Value.mem_leaves_of_at? hq hw)
      rw [← Value.leafIndex_eq_map distinct_pair expressible_pair, leafIndex_pair] at hmem
      simp only [List.mem_cons, Prod.mk.injEq, List.not_mem_nil, or_false] at hmem
      rcases hmem with ⟨-, rfl⟩ | ⟨-, rfl⟩ <;> rfl⟩
    exact ⟨shown, h⟩

/-- No leaf holds a number with too many digits, and yet the search for it is no setback,
so that it is raised also where errors are suppressed. -/
theorem not_absent_overlong :
    (pair.ProperReachable ∧ pair.value.Expressible) ∧
      pair.value.leafIndex.find (.overlong : Json) = [] ∧
      pair.verdict (.find (.json .overlong)) = .error .tooLong ∧
      ((Session.changeFlags quiet pair).call (.find (.json .overlong))).result =
        .error .tooLong := by
  have hfind : pair.value.leafIndex.find (.overlong : Json) = [] := by
    rw [leafIndex_pair]
    decide +kernel
  have hverdict : ∀ options, (Session.changeFlags options pair).verdict
      (.find (.json .overlong)) = .error .tooLong := by
    intro options
    exact (verdict_find_eq_tooLong rfl).2 ⟨Value.not_withinDigits_overlong, hfind⟩
  refine ⟨⟨properReachable_pair, expressible_pair⟩, hfind, hverdict ⟨none, none, none⟩, ?_⟩
  rw [call_eq_reported, hverdict]
  rfl

/-! ### Keys that may be any strings -/

/-- **Leaves are lost exactly where texts coincide.**  `leaves` lists every leaf position
of the document once.  The leaf index has as many entries as the positions have texts, so
one for every leaf exactly if the texts are all different, as they are if the keys are
names of the path grammar.  A search for a value that has a text fails exactly if no leaf
equals the value that is the last one with its text, and so, if the texts are all
different, only if no leaf at all equals it. -/
theorem find_of_kept {config : Config} {options : Options} {x : Json}
    (hd : Document.ofCandidate config options c = .ok d) (hc : c.check = .ok x)
    (hx : x.Distinct) :
    ((∀ q w, (q, w) ∈ d.value.leaves ↔ d.value.at? q = some w ∧ w.IsLeaf) ∧
        (d.value.leaves.map Prod.fst).Nodup) ∧
      d.value.leafIndex.length = d.value.texts.dedup.length ∧
      (d.value.leafIndex.length = d.value.leaves.length ↔ d.value.texts.Nodup) ∧
      (d.value.Expressible → d.value.texts.Nodup) ∧
      ∀ c' v, c'.check = .ok v →
        ((∃ shown, v.shown = some shown ∧
            d.verdict (.find c') = .error (.setback (.absent v shown))) ↔
          v.WithinDigits ∧ ∀ q w, d.value.Kept q w → w.equal v = false) ∧
        (d.value.texts.Nodup → ∀ shown,
          d.verdict (.find c') = .error (.setback (.absent v shown)) →
            ∀ q w, d.value.at? q = some w → w.IsLeaf → w.equal v = false) := by
  have hdist : d.value.Distinct := (value_of_ofCandidate hd hc).symm ▸ hx
  refine ⟨⟨fun q w => Value.mem_leaves hdist, Value.nodup_leaves hdist⟩,
    Value.length_leafIndex d.value, Value.length_leafIndex_iff d.value, fun he => ?_,
    fun c' v hc' => ?_⟩
  · rw [← Value.keys_named]
    exact Value.nodup_texts hdist he
  · refine ⟨by rw [verdict_find_eq_absent hc', Value.find_eq_nil_iff], ?_⟩
    intro hn shown h q w hq hw
    have hnil : d.value.leafIndex.find v = [] := by
      by_contra hne
      rw [verdict_find_eq_ok hc' hne] at h
      cases h
    exact Value.find_eq_nil_iff.1 hnil q w
      (Value.kept_of_nodup hn (Value.mem_leaves_of_at? hq hw))

/-- Two leaves of one text: a member of a member, and a member whose key has a dot. -/
def dotted : Document where
  root := .object 0 [("a", .object 1 [("b", .int 2)]), ("a.b", .int 1)]
  next := 2
  suppressErrors := .ofBool false
  suppressDiagnostics := .ofBool false
  indent := .spaces 2
  index := none

theorem ofCandidate_dotted :
    Document.ofCandidate .default ⟨none, none, some (.spaces 2)⟩
      (.json (.object () [("a", .object () [("b", .int 2)]), ("a.b", .int 1)])) = .ok dotted :=
  rfl

theorem distinct_dotted : dotted.value.Distinct := by
  have hint : ∀ n : Int, (Value.int n : Json).Distinct := fun n =>
    Value.distinct_of_mark?_eq_none rfl
  show (Value.object () [("a", .object () [("b", .int 2)]), ("a.b", .int 1)] : Json).Distinct
  simp [Value.distinct_object_iff, Assoc.keys, hint]

theorem leafIndex_dotted : dotted.value.leafIndex = [(".a.b", .int 1)] := by
  rw [Value.leafIndex_eq_ofList]
  rfl

theorem find_of_kept_dotted :
    dotted.value.Distinct ∧ ¬dotted.value.texts.Nodup ∧
      dotted.value.leafIndex.length ≠ dotted.value.leaves.length := by
  obtain ⟨-, -, hlength, -⟩ := find_of_kept ofCandidate_dotted rfl distinct_dotted
  have htexts : ¬dotted.value.texts.Nodup := by
    show ¬[".a.b", ".a.b"].Nodup
    decide
  exact ⟨distinct_dotted, htexts, fun h => htexts (hlength.1 h)⟩

/-- **A leaf may be lost.**  The path of a leaf leads to it, and yet the search of what it
holds fails, since a later leaf has the same text. -/
theorem leaf_lost :
    dotted.ProperReachable ∧
      Path.parse ".a.b" = .ok [.field "a", .field "b"] ∧
      dotted.value.at? [.field "a", .field "b"] = some (.int 2) ∧
      dotted.value.leaves.length = 2 ∧ dotted.value.leafIndex.length = 1 ∧
      dotted.verdict (.find (.json (.int 2))) = .error (.setback (.absent (.int 2) "2")) := by
  have hproper : dotted.ProperReachable :=
    .ofCandidate (Candidate.proper_json distinct_dotted) ofCandidate_dotted
  refine ⟨hproper, by decide +kernel, rfl, rfl, ?_, ?_⟩
  · rw [leafIndex_dotted]
    rfl
  · rw [verdict_find rfl, leafIndex_dotted]
    rfl

end JsonPaths.Document
