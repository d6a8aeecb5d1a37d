/-
JsonPaths/Proofs/Document/LeafUpdate.lean

Assignments at positions and at leaves.

A path that is the position of a value addresses that position alone, so that an
assignment at it puts the new value there and nowhere else (`setPath_of_at?`), and
nothing is shared afterwards that was not before (`SparingReachable.setPath`).  At the
path of a leaf this is an edit of the leaf index: the entry of the leaf gives way to the
leaves of the new value, and the other entries stay.  No leaf lies below another, so two
such assignments can be made in either order (`splice_after_setPath`).
-/
import JsonPaths.Proofs.Document.PlainUpdate
import JsonPaths.Proofs.Value.Splice

namespace JsonPaths

/-! ### What a position addresses -/

/-- The position of a value addresses one slot, of the container above it. -/
theorem Value.target_of_at? {μ : Type} {root a : Value μ} {init : List Step} {last : Step}
    (h : root.at? (init ++ [last]) = some a) :
    ∃ c m, root.at? init = some c ∧ c.mark? = some m ∧
      root.target (init ++ [last]) = .ok [⟨m, last⟩] := by
  rw [at?_concat, Option.bind_eq_some_iff] at h
  obtain ⟨c, hc, hchild⟩ := h
  cases c with
  | array m items =>
    obtain ⟨i, rfl, hi⟩ := child?_array_eq_some.1 hchild
    have hslots : (Place.value (.array m items)).slots (.index i) = [⟨m, .index i⟩] :=
      if_pos (List.getElem?_eq_some_iff.1 hi).1
    exact ⟨_, m, hc, rfl, target_concat_eq_ok.2 ⟨_, reach_of_at? hc, hslots, List.cons_ne_nil _ _⟩⟩
  | object m ms =>
    obtain ⟨k, rfl, -⟩ := child?_object_eq_some.1 hchild
    exact ⟨_, m, hc, rfl, target_concat_eq_ok.2 ⟨_, reach_of_at? hc, rfl, List.cons_ne_nil _ _⟩⟩
  | _ => cases last <;> cases hchild

theorem Json.addressed_of_at? {x a : Json} {q : List Step} (h : x.at? q = some a) :
    x.addressed q = [q] := by
  rcases q.eq_nil_or_concat' with rfl | ⟨init, last, rfl⟩
  · rfl
  obtain ⟨_, _, -, -, hplain⟩ := Value.target_of_at? h
  obtain ⟨l, hl, -, ha⟩ := Value.addressed_of_target hplain
  have hloc := Value.at?_located [] (init ++ [last]) x
  rw [h, Option.map_some] at hloc
  obtain ⟨c, m, hc, hm, ht⟩ := Value.target_of_at? hloc
  -- the container above the position has the position of its own for a mark
  rw [Value.at?_located, List.nil_append] at hc
  obtain ⟨c₀, -, rfl⟩ := Option.map_eq_some_iff.1 hc
  rw [Value.mark?_located, Option.map_eq_some_iff] at hm
  obtain ⟨_, -, rfl⟩ := hm
  obtain rfl := Except.ok.inj (hl.symm.trans ht)
  rwa [Value.erase_json] at ha

namespace Document

/-! ### Assignments at positions -/

/-- Documents in which nothing is shared: no call has assigned a container to several
positions at once. -/
abbrev SparingReachable : Document → Prop :=
  ReachableBy Candidate.Proper fun d c => c.Proper ∧ d.Spares c

section Position

variable {d : Document} {path : String} {q : List Step} {a v : Json} {c : Candidate}

/-- An assignment at a position puts the value there and nowhere else. -/
theorem setPath_of_at? (hd : d.SparingReachable) (ha : d.value.at? q = some a) (hne : q ≠ [])
    (hc : c.check = .ok v) (hp : Path.parse path = .ok q) :
    (d.setPath (.string path) c).result = .ok true ∧
      (d.setPath (.string path) c).document.value = Json.putAll [q] v d.value := by
  have htarget : ∃ slots, d.root.target q = .ok slots := by
    rw [value, Value.at?_erase, Option.map_eq_some_iff] at ha
    obtain ⟨b, hb, -⟩ := ha
    rcases q.eq_nil_or_concat' with rfl | ⟨init, last, rfl⟩
    · exact absurd rfl hne
    · obtain ⟨_, m, -, -, ht⟩ := Value.target_of_at? hb
      exact ⟨_, ht⟩
  obtain ⟨slots, ht⟩ := htarget
  have hr := (setPath_of_target hc hp ht).1
  refine ⟨hr, ?_⟩
  rw [value_after_setPath_of_sparing hd hc hp hr, Json.addressed_of_at? ha]

/-- Such an assignment shares nothing. -/
theorem SparingReachable.setPath (hd : d.SparingReachable) (ha : d.value.at? q = some a)
    (hc : c.check = .ok v) (hv : v.Distinct) (hp : Path.parse path = .ok q) :
    (d.setPath (.string path) c).document.SparingReachable := by
  refine .call (.set (.string path) c) hd ⟨fun w hw => ?_, fun w steps _ hp' => ?_⟩
  · exact Except.ok.inj (hc.symm.trans hw) ▸ hv
  · obtain rfl := Except.ok.inj ((ofJson_of_parse hp).symm.trans hp')
    rw [Json.addressed_of_at? ha]
    exact .inr (Nat.le_refl 1)

/-- An assignment goes through only at a path that can be read. -/
theorem writable_of_setPath (hn : ∀ s ∈ q, s.Named)
    (h : (d.setPath (.string (Path.render q)) c).result = .ok true) :
    ∀ s ∈ q, s.Writable := by
  rcases setPath_cases d (.string (Path.render q)) c with ⟨-, steps, -, -, hp, -⟩ | ⟨hr, -⟩
  · exact Path.writable_of_parse_render hn (parse_of_ofJson hp)
  · exact absurd h hr

theorem setPath_of_not_writable (hn : ∀ s ∈ q, s.Named) (hw : ¬∀ s ∈ q, s.Writable)
    (d : Document) (c : Candidate) : (d.setPath (.string (Path.render q)) c).document = d := by
  rcases setPath_cases d (.string (Path.render q)) c with ⟨_, _, _, _, _, _, hr, -⟩ | ⟨-, hdoc⟩
  · exact absurd (writable_of_setPath hn hr) hw
  · exact hdoc

end Position

/-- Assignments at two leaves can be made in either order. -/
theorem setPath_comm {d : Document} (hd : d.SparingReachable) (he : d.value.Expressible)
    {q r : List Step} {a b v w : Json} (hq : d.value.at? q = some a) (ha : a.IsLeaf)
    (hr : d.value.at? r = some b) (hb : b.IsLeaf) (hqr : q ≠ r) {c c' : Candidate}
    (hc : c.check = .ok v) (hv : v.Distinct) (hc' : c'.check = .ok w) (hw : w.Distinct) :
    ((d.setPath (.string (Path.render q)) c).document.setPath
        (.string (Path.render r)) c').document.value
      = ((d.setPath (.string (Path.render r)) c').document.setPath
        (.string (Path.render q)) c).document.value := by
  have hnq := Value.named_of_at? he hq
  have hnr := Value.named_of_at? he hr
  -- an assignment whose path cannot be read changes nothing, whichever comes first
  by_cases hwq : ∀ s ∈ q, s.Writable
  · by_cases hwr : ∀ s ∈ r, s.Writable
    · have hpq := (Path.parse_render_iff hnq).2 hwq
      have hpr := (Path.parse_render_iff hnr).2 hwr
      have hapart : ¬q <+: r := fun h => hqr (Json.eq_of_prefix hq ha hr h)
      have hapart' : ¬r <+: q := fun h => hqr (Json.eq_of_prefix hr hb hq h).symm
      have hneq : q ≠ [] := fun h => hapart (h ▸ List.nil_prefix)
      have hner : r ≠ [] := fun h => hapart' (h ▸ List.nil_prefix)
      have hdist : d.value.Distinct := Value.distinct_erase.2 (hd.distinct fun _ _ h => h.1)
      -- each leaf is still there when the other one has been assigned
      have hvq := (setPath_of_at? hd hq hneq hc hpq).2
      have hvr := (setPath_of_at? hd hr hner hc' hpr).2
      have hr' : (d.setPath (.string (Path.render q)) c).document.value.at? r = some b := by
        rw [hvq, Json.at?_putAll_of_apart (List.forall_mem_singleton.2 ⟨hapart, hapart'⟩), hr]
      have hq' : (d.setPath (.string (Path.render r)) c').document.value.at? q = some a := by
        rw [hvr, Json.at?_putAll_of_apart (List.forall_mem_singleton.2 ⟨hapart', hapart⟩), hq]
      rw [(setPath_of_at? (hd.setPath hq hc hv hpq) hr' hner hc' hpr).2,
        (setPath_of_at? (hd.setPath hr hc' hw hpr) hq' hneq hc hpq).2, hvq, hvr]
      exact Json.put_comm hdist hq hr hapart hapart'
    · rw [setPath_of_not_writable hnr hwr, setPath_of_not_writable hnr hwr]
  · rw [setPath_of_not_writable hnq hwq, setPath_of_not_writable hnq hwq]

/-! ### Assignments at leaves -/

theorem value_of_ofCandidate {config : Config} {options : Options} {c : Candidate}
    {d : Document} {x : Json} (h : Document.ofCandidate config options c = .ok d)
    (hc : c.check = .ok x) : d.value = x := by
  obtain ⟨v, hv, hof⟩ := ofCandidate_eq_ok h
  obtain rfl := Except.ok.inj (hc.symm.trans hv)
  rw [value, (ofJson_eq_ok hof).1, Value.erase_json_withMarks]

/-- What is entered in the leaf index is a leaf, under the text of its position. -/
theorem exists_of_mem_leafIndex {x a : Json} (hd : x.Distinct) (he : x.Expressible) {p : String}
    (h : (p, a) ∈ x.leafIndex) :
    ∃ q, p = Path.render q ∧ x.at? q = some a ∧ a.IsLeaf := by
  rw [Value.leafIndex_eq_map hd he, List.mem_map] at h
  obtain ⟨l, hl, e⟩ := h
  obtain ⟨rfl, rfl⟩ := Prod.mk.inj e
  obtain ⟨hat, hleaf⟩ := Value.at?_of_mem_leaves hd hl
  exact ⟨l.1, rfl, hat, hleaf⟩

theorem distinct_pair : pair.value.Distinct := by
  have hpair := properReachable_pair.distinct fun _ _ h => h
  exact Value.distinct_erase.2 hpair

theorem expressible_pair : pair.value.Expressible := by
  have hint : (Value.int 1 : Json).Expressible := Value.expressible_of_mark?_eq_none rfl
  have ha : Path.IsName "a".toList := ⟨by simp, by simp⟩
  have hmember : (Value.object () [("a", .int 1)] : Json).Expressible :=
    Value.expressible_object_iff.2
      ⟨List.forall_mem_singleton.2 ha, List.forall_mem_singleton.2 hint⟩
  exact Value.expressible_array_iff.2
    (List.forall_mem_cons.2 ⟨hmember, List.forall_mem_singleton.2 hmember⟩)

theorem leafIndex_pair :
    pair.value.leafIndex = [(".[0].a", .int 1), (".[1].a", .int 1)] :=
  Value.leafIndex_eq_map distinct_pair expressible_pair

end Document

end JsonPaths
