/-
JsonPaths/Proofs/Value/Distinct.lean

Values in which no object has a key twice.

JSON objects are maps, and a list of members stands for a map if its keys are
distinct.  The reader of JSON text makes such values only, since a repeated key
takes the place of the earlier one (`distinct_of_read`).
-/
import JsonPaths.Json.Reader
import JsonPaths.Proofs.Assoc
import JsonPaths.Proofs.Value.Contains

namespace JsonPaths

/-! ### Values -/

namespace Value

variable {μ : Type}

/-- No object in the value has two members of one name. -/
def Distinct (v : Value μ) : Prop := v.Objects fun ms => (Assoc.keys ms).Nodup

theorem Distinct.of_contains {v w : Value μ} {k : Nat} (h : v.Distinct)
    (hc : v.Contains k w) : w.Distinct :=
  Objects.of_contains h hc

theorem distinct_of_mark?_eq_none {v : Value μ} (h : v.mark? = none) : v.Distinct :=
  objects_of_mark?_eq_none h

theorem distinct_array_iff {m : μ} {items : List (Value μ)} :
    (array m items).Distinct ↔ ∀ v ∈ items, v.Distinct :=
  objects_array_iff

theorem distinct_object_iff {m : μ} {ms : List (String × Value μ)} :
    (object m ms).Distinct ↔ (Assoc.keys ms).Nodup ∧ ∀ p ∈ ms, p.2.Distinct :=
  objects_object_iff

end Value

/-! ### Values that are read -/

namespace Json

theorem distinct_of_readNumber {s r : List Char} {v : Json}
    (h : readNumber s = .ok (v, r)) : v.Distinct := by
  refine Value.distinct_of_mark?_eq_none ?_
  unfold readNumber at h
  dsimp only at h
  split at h
  all_goals
    split at h
    · cases h
    · split at h
      · split at h
        · cases h
        · cases h; rfl
      · cases h; rfl

/-- What a word stands for is one of the values in the table. -/
theorem mem_of_readWord? {s r : List Char} {v : Json} {ws : List (String × Json)}
    (h : readWord? s ws = some (v, r)) : ∃ word, (word, v) ∈ ws := by
  induction ws with
  | nil => cases h
  | cons w ws ih =>
    unfold readWord? at h
    split at h
    · cases h
      exact ⟨w.1, List.mem_cons_self⟩
    · obtain ⟨word, hw⟩ := ih h
      exact ⟨word, List.mem_cons_of_mem _ hw⟩

theorem distinct_of_readPlain {s r : List Char} {v : Json} (h : readPlain s = .ok (v, r)) :
    v.Distinct := by
  unfold readPlain at h
  split at h
  · next hr =>
    cases h
    obtain ⟨word, hw⟩ := mem_of_readWord? hr
    apply Value.distinct_of_mark?_eq_none
    simp only [words, List.mem_cons, Prod.mk.injEq, List.not_mem_nil, or_false] at hw
    rcases hw with ⟨-, rfl⟩ | ⟨-, rfl⟩ | ⟨-, rfl⟩ | ⟨-, rfl⟩ | ⟨-, rfl⟩ | ⟨-, rfl⟩ <;> rfl
  · exact distinct_of_readNumber h

/-- Values that are read with so much fuel have distinct keys, if those have that
were read before them in their container. -/
structure ReadsDistinct (fuel : Nat) : Prop where
  value : ∀ s v r, readValue fuel s = .ok (v, r) → v.Distinct
  items : ∀ done s v r, (∀ w ∈ done, w.Distinct) → readItems fuel done s = .ok (v, r) →
    v.Distinct
  members : ∀ done s v r, (∀ p ∈ done, p.2.Distinct) →
    readMembers fuel done s = .ok (v, r) → v.Distinct

namespace ReadsDistinct

variable {fuel : Nat} {s r : List Char} {v : Json}

theorem value_succ (h : ReadsDistinct fuel) (hv : readValue (fuel + 1) s = .ok (v, r)) :
    v.Distinct := by
  unfold readValue at hv
  split at hv
  · simp only [Except.map] at hv
    split at hv
    · cases hv
    · cases hv
      exact Value.distinct_of_mark?_eq_none rfl
  · split at hv
    · cases hv
      exact Value.distinct_array_iff.2 (by simp)
    · exact h.items [] _ v r (by simp) hv
  · split at hv
    · cases hv
      exact Value.distinct_object_iff.2 (by simp [Assoc.keys])
    · exact h.members [] _ v r (by simp) hv
  · exact distinct_of_readPlain hv

theorem items_succ (h : ReadsDistinct fuel) {done : List Json}
    (hd : ∀ w ∈ done, w.Distinct) (hv : readItems (fuel + 1) done s = .ok (v, r)) :
    v.Distinct := by
  unfold readItems at hv
  split at hv
  · cases hv
  · next w r' hw =>
    have hd : ∀ x ∈ w :: done, x.Distinct :=
      List.forall_mem_cons.2 ⟨h.value _ _ _ hw, hd⟩
    split at hv
    · cases hv
      exact Value.distinct_array_iff.2 fun x hx => hd x (List.mem_reverse.1 hx)
    · exact h.items _ _ v r hd hv
    · cases hv

theorem members_succ (h : ReadsDistinct fuel) {done : List (String × Json)}
    (hd : ∀ p ∈ done, p.2.Distinct) (hv : readMembers (fuel + 1) done s = .ok (v, r)) :
    v.Distinct := by
  unfold readMembers at hv
  split at hv
  · split at hv
    · cases hv
    next k _ _ =>
    split at hv
    · split at hv
      · cases hv
      next w _ hw =>
      have hd : ∀ p ∈ (String.ofList k, w) :: done, p.2.Distinct :=
        List.forall_mem_cons.2 ⟨h.value _ _ _ hw, hd⟩
      dsimp only at hv
      split at hv
      · cases hv
        -- a key may come twice in the text; `Assoc.ofList` keeps one member of it
        obtain ⟨hn, hm⟩ := Assoc.nodup_keys_ofList ((String.ofList k, w) :: done).reverse
        refine Value.distinct_object_iff.2 ⟨hn, fun p hp => ?_⟩
        obtain ⟨q, hq, e⟩ := hm p hp
        exact e ▸ hd q (List.mem_reverse.1 hq)
      · exact h.members _ _ v r hd hv
      · cases hv
    · cases hv
  · cases hv

end ReadsDistinct

/-- Every value in the text has distinct keys, by induction on the fuel. -/
theorem readsDistinct (fuel : Nat) : ReadsDistinct fuel := by
  induction fuel with
  | zero =>
    constructor
    · intro s v r h
      simp [readValue] at h
    · intro done s v r _ h
      simp [readItems] at h
    · intro done s v r _ h
      simp [readMembers] at h
  | succ fuel ih =>
    constructor
    · intro s v r h
      exact ih.value_succ h
    · intro done s v r hd h
      exact ih.items_succ hd h
    · intro done s v r hd h
      exact ih.members_succ hd h

/-- What is read from JSON text has distinct keys. -/
theorem distinct_of_read {s : String} {v : Json} (h : read s = .ok v) : v.Distinct := by
  unfold read readAll at h
  split at h
  · cases h
  · split at h
    · cases h
    · next w r hw =>
      have hd := (readsDistinct _).value _ _ _ hw
      split at h
      · cases h
        exact hd
      · cases h

end Json

end JsonPaths
