/-
JsonPaths/Proofs/Log/Styled.lean

Styles stay in their places.

A styled text is tidy if its spans hold something, lie in the text and follow each other
without overlap.  Texts in a row are the characters in a row, with the spans of each text
further on by what stands before it (`concat_eq`), and a row of tidy texts is tidy
(`Tidy.concat`).  The search for one text in another finds the first place where it
occurs, and finds it if there is one (`occurrence?_eq_some_iff`); what stands behind an
occurrence has no part in whether it is the first (`firstAt_append_append`).
-/
import Mathlib.Data.Nat.Find
import JsonPaths.Log.Styled

namespace JsonPaths.Styled

/-! ### Characters that are kept -/

theorem mem_clean {c : Char} {s : List Char} : c ∈ clean s ↔ c ∈ s ∧ isKept c = true :=
  List.mem_filter

theorem clean_append (s t : List Char) : clean (s ++ t) = clean s ++ clean t :=
  List.filter_append ..

theorem clean_eq_self {s : List Char} (h : ∀ c ∈ s, isKept c = true) : clean s = s :=
  List.filter_eq_self.2 h

/-- Nothing is dropped from a text that does not get shorter. -/
theorem forall_isKept_of_length {s : List Char} (h : s.length ≤ (clean s).length) :
    ∀ c ∈ s, isKept c = true :=
  List.filter_eq_self.1 (List.filter_sublist.eq_of_length_le h)

theorem clean_ne_nil {c : Char} {s : List Char} (hc : c ∈ s) (hk : isKept c = true) :
    clean s ≠ [] :=
  List.ne_nil_of_mem (mem_clean.2 ⟨hc, hk⟩)

/-! ### Single texts -/

@[simp] theorem chars_plain (s : List Char) : (plain s).chars = clean s := rfl

@[simp] theorem spans_plain (s : List Char) : (plain s).spans = [] := rfl

@[simp] theorem chars_inStyle (s : List Char) (style : Option String) :
    (inStyle s style).chars = clean s := rfl

@[simp] theorem spans_inStyle (s : List Char) (style : Option String) :
    (inStyle s style).spans = style.toList.map fun st => ⟨0, (clean s).length, st⟩ := by
  cases style <;> rfl

theorem shift_mk (n start stop : Nat) (style : String) :
    shift n ⟨start, stop, style⟩ = ⟨n + start, n + stop, style⟩ := by
  rw [shift, Nat.add_comm start, Nat.add_comm stop]

/-! ### One more style -/

@[simp] theorem chars_stylize (t : Styled) (style : String) (start stop : Nat) :
    (t.stylize style start stop).chars = t.chars := by
  rw [stylize]
  split <;> rfl

theorem stylize_of_outside {t : Styled} {start : Nat} (h : t.chars.length ≤ start)
    (style : String) (stop : Nat) : t.stylize style start stop = t := by
  rw [stylize, if_pos (by simp [h])]

theorem spans_stylize {t : Styled} {start stop : Nat} (h : start < t.chars.length)
    (hlt : start < stop) (style : String) :
    (t.stylize style start stop).spans =
      t.spans ++ [⟨start, min t.chars.length stop, style⟩] := by
  rw [stylize, if_neg (by simp [h, hlt])]

/-! ### Texts in a row -/

/-- The spans of texts in a row, the first of which starts at `n`. -/
def spansFrom (n : Nat) : List Styled → List Span
  | [] => []
  | t :: ts => t.spans.map (shift n) ++ spansFrom (n + t.chars.length) ts

theorem foldl_append_eq (ts : List Styled) (t : Styled) :
    ts.foldl append t =
      ⟨t.chars ++ ts.flatMap chars, t.spans ++ spansFrom t.chars.length ts⟩ := by
  induction ts generalizing t with
  | nil => simp [spansFrom]
  | cons u ts ih =>
    rw [List.foldl_cons, ih]
    simp [append, spansFrom]

theorem concat_eq (ts : List Styled) : concat ts = ⟨ts.flatMap chars, spansFrom 0 ts⟩ :=
  foldl_append_eq ts ⟨[], []⟩

theorem spansFrom_append (n : Nat) (ts us : List Styled) :
    spansFrom n (ts ++ us) = spansFrom n ts ++ spansFrom (n + (ts.flatMap chars).length) us := by
  induction ts generalizing n with
  | nil => rfl
  | cons t ts ih =>
    rw [List.cons_append, spansFrom, ih, spansFrom, List.flatMap_cons, List.length_append,
      List.append_assoc, Nat.add_assoc]

theorem map_shift_spansFrom (n k : Nat) (ts : List Styled) :
    (spansFrom k ts).map (shift n) = spansFrom (n + k) ts := by
  induction ts generalizing k with
  | nil => rfl
  | cons t ts ih =>
    have hshift : shift n ∘ shift k = shift (n + k) := by
      funext s
      simp only [Function.comp_apply, shift, Nat.add_assoc, Nat.add_comm k n]
    rw [spansFrom, spansFrom, List.map_append, List.map_map, hshift, ih, Nat.add_assoc]

/-- A row within a row is the same as its texts in its place. -/
theorem concat_append_concat (ts us vs : List Styled) :
    concat (ts ++ concat us :: vs) = concat (ts ++ (us ++ vs)) := by
  have hchars : (concat us).chars = us.flatMap chars := by rw [concat_eq]
  have hspans : (concat us).spans = spansFrom 0 us := by rw [concat_eq]
  rw [concat_eq, concat_eq (ts ++ (us ++ vs)), Styled.mk.injEq]
  constructor
  · simp only [List.flatMap_append, List.flatMap_cons, hchars]
  · rw [spansFrom_append, spansFrom_append, spansFrom_append, spansFrom, hspans, hchars,
      map_shift_spansFrom, Nat.add_zero]

/-! ### Tidy texts -/

/-- The spans of a text follow each other, and each of them holds something of it. -/
structure Tidy (t : Styled) : Prop where
  ordered : t.spans.Pairwise fun a b => a.stop ≤ b.start
  inside : ∀ s ∈ t.spans, s.start < s.stop ∧ s.stop ≤ t.chars.length

theorem tidy_plain (s : List Char) : (plain s).Tidy :=
  ⟨.nil, nofun⟩

theorem tidy_inStyle {s : List Char} {style : Option String}
    (h : style.isSome = true → clean s ≠ []) : (inStyle s style).Tidy := by
  cases style with
  | none => exact ⟨.nil, nofun⟩
  | some st =>
    refine ⟨List.pairwise_singleton _ _, fun sp hsp => ?_⟩
    obtain rfl := List.mem_singleton.1 hsp
    exact ⟨List.length_pos_iff.2 (h rfl), Nat.le_refl _⟩

/-- Spans of tidy texts in a row are in order, and behind the place where the row starts. -/
theorem tidy_spansFrom {ts : List Styled} (h : ∀ t ∈ ts, t.Tidy) (n : Nat) :
    (spansFrom n ts).Pairwise (fun a b => a.stop ≤ b.start) ∧
      ∀ s ∈ spansFrom n ts, n ≤ s.start ∧ s.start < s.stop ∧
        s.stop ≤ n + (ts.flatMap chars).length := by
  induction ts generalizing n with
  | nil => exact ⟨.nil, nofun⟩
  | cons t ts ih =>
    obtain ⟨ht, hts⟩ := List.forall_mem_cons.1 h
    obtain ⟨hordered, hinside⟩ := ih hts (n + t.chars.length)
    -- a span of the first text is where it was, further on by `n`
    have hfirst : ∀ s ∈ t.spans.map (shift n), n ≤ s.start ∧ s.start < s.stop ∧
        s.stop ≤ n + t.chars.length := by
      intro s hs
      obtain ⟨sp, hsp, rfl⟩ := List.mem_map.1 hs
      obtain ⟨hlt, hle⟩ := ht.inside sp hsp
      simp only [shift]
      omega
    rw [spansFrom, List.flatMap_cons, List.length_append]
    constructor
    · rw [List.pairwise_append]
      refine ⟨List.pairwise_map.2 (ht.ordered.imp fun h => ?_), hordered, fun a ha b hb => ?_⟩
      · simp only [shift]
        omega
      · have hb := (hinside b hb).1
        have ha := (hfirst a ha).2.2
        omega
    · intro s hs
      rcases List.mem_append.1 hs with hs | hs
      · have hs := hfirst s hs
        omega
      · have hs := hinside s hs
        omega

theorem Tidy.concat {ts : List Styled} (h : ∀ t ∈ ts, t.Tidy) : (concat ts).Tidy := by
  obtain ⟨hordered, hinside⟩ := tidy_spansFrom h 0
  rw [concat_eq]
  refine ⟨hordered, fun s hs => ?_⟩
  obtain ⟨-, hlt, hle⟩ := hinside s hs
  exact ⟨hlt, by simpa using hle⟩

/-! ### The first occurrence -/

/-- One text occurs in another at a place, and nowhere before. -/
def FirstAt (part s : List Char) (i : Nat) : Prop :=
  part <+: s.drop i ∧ ∀ j < i, ¬part <+: s.drop j

theorem occurrence?_eq_some_iff {part s : List Char} {i : Nat} :
    occurrence? part s = some i ↔ FirstAt part s i := by
  induction s generalizing i with
  | nil =>
    cases part with
    | nil =>
      show some 0 = some i ↔ _
      constructor
      · rintro ⟨⟩
        exact ⟨List.prefix_rfl, nofun⟩
      · rintro ⟨-, hfirst⟩
        cases i with
        | zero => rfl
        | succ i => exact absurd List.prefix_rfl (hfirst 0 (Nat.succ_pos i))
    | cons c part =>
      show none = some i ↔ _
      refine iff_of_false nofun ?_
      rintro ⟨hp, -⟩
      rw [List.drop_nil] at hp
      exact absurd (List.prefix_nil.1 hp) (List.cons_ne_nil c part)
  | cons c r ih =>
    rw [occurrence?]
    by_cases hp : part.isPrefixOf (c :: r)
    · have hp' : part <+: (c :: r).drop 0 := List.isPrefixOf_iff_prefix.1 hp
      rw [if_pos hp]
      constructor
      · rintro ⟨⟩
        exact ⟨hp', nofun⟩
      · rintro ⟨-, hfirst⟩
        cases i with
        | zero => rfl
        | succ i => exact absurd hp' (hfirst 0 (Nat.succ_pos i))
    · have hp' : ¬part <+: (c :: r).drop 0 := fun h => hp (List.isPrefixOf_iff_prefix.2 h)
      rw [if_neg hp]
      cases i with
      | zero =>
        refine iff_of_false ?_ fun h => hp' h.1
        cases occurrence? part r <;> nofun
      | succ i =>
        have hmap : (occurrence? part r).map (· + 1) = some (i + 1) ↔
            occurrence? part r = some i := by
          cases occurrence? part r <;> simp
        rw [hmap, ih]
        constructor
        · rintro ⟨hat, hfirst⟩
          refine ⟨hat, fun j hj => ?_⟩
          cases j with
          | zero => exact hp'
          | succ j => exact hfirst j (Nat.lt_of_succ_lt_succ hj)
        · rintro ⟨hat, hfirst⟩
          exact ⟨hat, fun j hj => hfirst (j + 1) (Nat.succ_lt_succ hj)⟩

/-- A text that occurs has a first place where it does. -/
theorem exists_firstAt {part s : List Char} {k : Nat} (h : part <+: s.drop k) :
    ∃ i ≤ k, FirstAt part s i := by
  have hex : ∃ i, part <+: s.drop i := ⟨k, h⟩
  exact ⟨Nat.find hex, Nat.find_min' hex h, Nat.find_spec hex, fun _ => Nat.find_min hex⟩

/-- What stands behind an occurrence has no part in whether there is one before it. -/
theorem firstAt_append_append {front part rest : List Char} :
    FirstAt part (front ++ (part ++ rest)) front.length ↔
      FirstAt part (front ++ part) front.length := by
  have hbefore : ∀ j < front.length, part <+: (front ++ (part ++ rest)).drop j ↔
      part <+: (front ++ part).drop j := by
    intro j hj
    rw [← List.append_assoc, List.drop_append_of_le_length (by rw [List.length_append]; omega)]
    refine ⟨fun hp => ?_, fun hp => hp.trans (List.prefix_append _ _)⟩
    refine List.prefix_of_prefix_length_le hp (List.prefix_append _ _) ?_
    rw [List.length_drop, List.length_append]
    omega
  constructor
  · rintro ⟨-, hfirst⟩
    exact ⟨by simp, fun j hj hp => hfirst j hj ((hbefore j hj).2 hp)⟩
  · rintro ⟨-, hfirst⟩
    exact ⟨by simp, fun j hj hp => hfirst j hj ((hbefore j hj).1 hp)⟩

/-- A text is found where it stands if what is before it lacks its first character. -/
theorem firstAt_of_head_not_mem {front part : List Char} {c : Char} (h : c ∉ front) :
    FirstAt (c :: part) (front ++ c :: part) front.length := by
  refine ⟨by simp, fun j hj hp => h ?_⟩
  rw [List.drop_append_of_le_length (Nat.le_of_lt hj), List.drop_eq_getElem_cons hj,
    List.cons_append, List.cons_prefix_cons] at hp
  exact hp.1 ▸ List.getElem_mem hj

theorem FirstAt.unique {part s : List Char} {i j : Nat} (h : FirstAt part s i)
    (h' : FirstAt part s j) : i = j :=
  Option.some.inj ((occurrence?_eq_some_iff.2 h).symm.trans (occurrence?_eq_some_iff.2 h'))

end JsonPaths.Styled
