/-
JsonPaths/Proofs/Value/Same.lean

Equal values.

Two values are the same if they have one shape, with the same keys in any order, and hold
equal texts, truth values and nulls, and at the positions of numbers numbers that stand
for one exact quantity (`Value.Same`).  This is what `Value.equal` decides
(`equal_iff`), so it is symmetric and transitive, and reflexive for the values without
NaN.  The relation also compares the marks of containers by a relation of its own, which
may be one that always holds.
-/
import JsonPaths.Proofs.Double.Quantity
import JsonPaths.Proofs.Related
import JsonPaths.Proofs.Value.Distinct
import JsonPaths.Value.Equal

namespace JsonPaths.Value

variable {μ ν ξ : Type}

/-! ### Sameness -/

/-- The exact quantity of a number; NaN and everything that is no number have none. -/
def quantity? : Value μ → Option Quantity
  | .int n => some (.finite n)
  | .double x => x.quantity?
  | _ => none

/-- The two values are of one shape, with related marks, the same keys in any order, equal
texts, truth values and nulls, and numbers of the same quantity. -/
inductive Same (R : μ → ν → Prop) : Value μ → Value ν → Prop
  | null : Same R .null .null
  | bool (b : Bool) : Same R (.bool b) (.bool b)
  | string (s : String) : Same R (.string s) (.string s)
  | number {a : Value μ} {b : Value ν} {q : Quantity} : a.quantity? = some q →
      b.quantity? = some q → Same R a b
  | array {m : μ} {m' : ν} {as : List (Value μ)} {bs : List (Value ν)} : R m m' →
      as.length = bs.length →
      (∀ (i : Nat) a b, as[i]? = some a → bs[i]? = some b → Same R a b) →
      Same R (.array m as) (.array m' bs)
  | object {m : μ} {m' : ν} {as : List (String × Value μ)} {bs : List (String × Value ν)} :
      R m m' → (∀ k, k ∈ Assoc.keys as ↔ k ∈ Assoc.keys bs) →
      (∀ k a b, as.lookup k = some a → bs.lookup k = some b → Same R a b) →
      Same R (.object m as) (.object m' bs)

/-- Values are equal as the program compares them, whatever their marks. -/
abbrev Matches (a : Value μ) (b : Value ν) : Prop := a.Same (fun _ _ => True) b

/-! ### What is compared -/

theorem sameKeys_iff {as : List (String × Value μ)} {bs : List (String × Value ν)} :
    Assoc.sameKeys as bs = true ↔ ∀ k, k ∈ Assoc.keys as ↔ k ∈ Assoc.keys bs := by
  simp only [Assoc.sameKeys, Bool.and_eq_true, List.all_eq_true, Assoc.isSome_lookup_iff]
  constructor
  · rintro ⟨h, h'⟩ k
    constructor
    · intro hk
      obtain ⟨p, hp, rfl⟩ := List.mem_map.1 hk
      exact h p hp
    · intro hk
      obtain ⟨p, hp, rfl⟩ := List.mem_map.1 hk
      exact h' p hp
  · intro h
    exact ⟨fun p hp => (h p.1).1 (List.mem_map_of_mem hp),
      fun p hp => (h p.1).2 (List.mem_map_of_mem hp)⟩

theorem equalItems_iff {as : List (Value μ)} {bs : List (Value ν)}
    (hl : as.length = bs.length) : equalItems as bs = true ↔
      ∀ (i : Nat) a b, as[i]? = some a → bs[i]? = some b → a.equal b = true := by
  induction as generalizing bs with
  | nil => simp [equalItems]
  | cons a as ih =>
    cases bs with
    | nil => cases hl
    | cons b bs =>
      rw [equalItems, Bool.and_eq_true, ih (Nat.succ.inj hl)]
      constructor
      · rintro ⟨hab, h⟩ i a' b' ha hb
        cases i with
        | zero => exact Option.some.inj ha ▸ Option.some.inj hb ▸ hab
        | succ i => exact h i a' b' ha hb
      · exact fun h => ⟨h 0 a b rfl rfl, fun i => h (i + 1)⟩

theorem equalMembers_iff {as : List (String × Value μ)} {bs : List (String × Value ν)} :
    equalMembers as bs = true ↔
      ∀ p ∈ as, ∃ b, bs.lookup p.1 = some b ∧ p.2.equal b = true := by
  induction as with
  | nil => simp [equalMembers]
  | cons p as ih =>
    obtain ⟨k, a⟩ := p
    rw [equalMembers, List.forall_mem_cons, ← ih]
    cases hb : bs.lookup k with
    | none => simp
    | some b => simp

theorem equal_int_iff {n : Int} {b : Value ν} :
    (int n : Value μ).equal b = true ↔ b.quantity? = some (.finite n) := by
  cases b with
  | int n' =>
    have hcast : (n' : ℚ) = n ↔ n' = n := by exact_mod_cast Iff.rfl
    rw [equal, beq_iff_eq, quantity?, Option.some.injEq, Quantity.finite.injEq, hcast, eq_comm]
  | double y => exact Double.equalsInt_iff
  | _ => simp [equal, quantity?]

theorem equal_double_iff {x : Double} {b : Value ν} :
    (double x : Value μ).equal b = true ↔
      ∃ q, x.quantity? = some q ∧ b.quantity? = some q := by
  cases b with
  | int n =>
    show x.equalsInt n = true ↔ _
    rw [Double.equalsInt_iff]
    simp [quantity?]
  | double y => exact Double.equals_iff
  | _ => simp [equal, quantity?]

theorem same_of_equal {a : Value μ} {b : Value ν} (ha : a.Distinct) (h : a.equal b = true) :
    a.Matches b := by
  induction a using Value.ind generalizing b with
  | null => cases b <;> first | exact .null | simp [equal] at h
  | bool x =>
    cases b with
    | bool y =>
      obtain rfl : x = y := by simpa [equal] using h
      exact .bool x
    | _ => simp [equal] at h
  | string x =>
    cases b with
    | string y =>
      obtain rfl : x = y := by simpa [equal] using h
      exact .string x
    | _ => simp [equal] at h
  | int n => exact .number rfl (equal_int_iff.1 h)
  | double x =>
    obtain ⟨q, hx, hb⟩ := equal_double_iff.1 h
    exact .number hx hb
  | array m as ih =>
    cases b with
    | array m' bs =>
      have hparts : as.length = bs.length ∧ equalItems as bs = true := by
        simpa [equal] using h
      obtain ⟨hl, hitems⟩ := hparts
      rw [equalItems_iff hl] at hitems
      refine .array trivial hl fun i a b hia hib => ?_
      have hmem := List.mem_of_getElem? hia
      exact ih a hmem (distinct_array_iff.1 ha a hmem) (hitems i a b hia hib)
    | _ => simp [equal] at h
  | object m as ih =>
    cases b with
    | object m' bs =>
      have hparts : Assoc.sameKeys as bs = true ∧ equalMembers as bs = true := by
        simpa [equal] using h
      obtain ⟨hkeys, hmembers⟩ := hparts
      rw [equalMembers_iff] at hmembers
      refine .object trivial (sameKeys_iff.1 hkeys) fun k a b hka hkb => ?_
      have hmem := Assoc.mem_of_lookup hka
      obtain ⟨b', hb', hab⟩ := hmembers _ hmem
      obtain rfl := Option.some.inj (hkb.symm.trans hb')
      exact ih _ hmem ((distinct_object_iff.1 ha).2 _ hmem) hab
    | _ => simp [equal] at h

theorem equal_of_same {a : Value μ} {b : Value ν} (ha : a.Distinct) (h : a.Matches b) :
    a.equal b = true := by
  induction h with
  | null => rfl
  | bool x => simp [equal]
  | string x => simp [equal]
  | @number a b q hqa hqb =>
    cases a with
    | int n => exact equal_int_iff.2 (hqb.trans hqa.symm)
    | double x => exact equal_double_iff.2 ⟨q, hqa, hqb⟩
    | _ => cases hqa
  | @array m m' as bs _ hl _ ih =>
    have hitems : equalItems as bs = true := (equalItems_iff hl).2 fun i a b hia hib =>
      ih i a b hia hib (distinct_array_iff.1 ha a (List.mem_of_getElem? hia))
    simp [equal, hl, hitems]
  | @object m m' as bs _ hkeys _ ih =>
    obtain ⟨hnodup, hdistinct⟩ := distinct_object_iff.1 ha
    have hmembers : equalMembers as bs = true := by
      refine equalMembers_iff.2 fun p hp => ?_
      have hlookup := Assoc.lookup_of_mem hnodup hp
      obtain ⟨b, hb⟩ := Option.isSome_iff_exists.1
        (Assoc.isSome_lookup_iff.2 ((hkeys p.1).1 (List.mem_map_of_mem hp)))
      exact ⟨b, hb, ih p.1 p.2 b hlookup hb (hdistinct p hp)⟩
    simp [equal, sameKeys_iff.2 hkeys, hmembers]

/-- **What the program compares is sameness.** -/
theorem equal_iff {a : Value μ} {b : Value ν} (ha : a.Distinct) :
    a.equal b = true ↔ a.Matches b := ⟨same_of_equal ha, equal_of_same ha⟩

namespace Same

variable {R : μ → ν → Prop} {S : ν → ξ → Prop} {a : Value μ} {b : Value ν} {c : Value ξ}

theorem symm (h : a.Same R b) : b.Same (fun y x => R x y) a := by
  induction h with
  | null => exact .null
  | bool x => exact .bool x
  | string x => exact .string x
  | number ha hb => exact .number hb ha
  | array hm hl _ ih => exact .array hm hl.symm fun i b a hb ha => ih i a b ha hb
  | object hm hk _ ih => exact .object hm (fun k => (hk k).symm) fun k b a hb ha => ih k a b ha hb

theorem mono {R' : μ → ν → Prop} (h : a.Same R b) (hR : ∀ x y, R x y → R' x y) :
    a.Same R' b := by
  induction h with
  | null => exact .null
  | bool x => exact .bool x
  | string x => exact .string x
  | number ha hb => exact .number ha hb
  | array hm hl _ ih => exact .array (hR _ _ hm) hl ih
  | object hm hk _ ih => exact .object (hR _ _ hm) hk ih

theorem quantity?_eq (h : a.Same R b) : a.quantity? = b.quantity? := by
  cases h with
  | number ha hb => rw [ha, hb]
  | _ => rfl

theorem trans (h : a.Same R b) (h' : b.Same S c) :
    a.Same (fun x z => ∃ y, R x y ∧ S y z) c := by
  induction h generalizing c with
  | null | bool | string =>
    cases h' with
    | number hb _ => cases hb
    | _ => constructor
  | number ha hb =>
    exact .number ha (h'.quantity?_eq ▸ hb)
  | @array m m' as bs hm hl _ ih =>
    cases h' with
    | number hb _ => cases hb
    | array hm' hl' hitems =>
      refine .array ⟨_, hm, hm'⟩ (hl.trans hl') fun i a c hia hic => ?_
      have hi := (List.getElem?_eq_some_iff.1 hia).1
      have hib := List.getElem?_eq_getElem (hl ▸ hi : i < bs.length)
      exact ih i a _ hia hib (hitems i _ c hib hic)
  | @object m m' as bs hm hk _ ih =>
    cases h' with
    | number hb _ => cases hb
    | object hm' hk' hmembers =>
      refine .object ⟨_, hm, hm'⟩ (fun k => (hk k).trans (hk' k)) fun k a c hka hkc => ?_
      have hkeys := (hk k).1 (Assoc.isSome_lookup_iff.1 (Option.isSome_of_mem hka))
      obtain ⟨b, hb⟩ := Option.isSome_iff_exists.1 (Assoc.isSome_lookup_iff.2 hkeys)
      exact ih k a b hka hb (hmembers k b c hb hkc)

/-- No part of a value that is the same as another is NaN. -/
theorem not_contains_nan (h : a.Same R b) (ha : a.Distinct) (k : Nat) :
    ¬a.Contains k (.double .nan) := by
  induction h generalizing k with
  | null => exact nofun
  | bool => exact nofun
  | string => exact nofun
  | number hqa =>
    intro hc
    cases hc with
    | here => cases hqa
    | item | member => cases hqa
  | @array m m' as bs _ hl _ ih =>
    intro hc
    cases hc with
    | item hv hc =>
      obtain ⟨i, hi⟩ := List.mem_iff_getElem?.1 hv
      have hlt := (List.getElem?_eq_some_iff.1 hi).1
      have hib := List.getElem?_eq_getElem (hl ▸ hlt : i < bs.length)
      exact ih i _ _ hi hib (distinct_array_iff.1 ha _ hv) _ hc
  | @object m m' as bs _ hk _ ih =>
    obtain ⟨hnodup, hdistinct⟩ := distinct_object_iff.1 ha
    intro hc
    cases hc with
    | @member _ _ name v _ k hv hc =>
      obtain ⟨w, hw⟩ := Option.isSome_iff_exists.1
        (Assoc.isSome_lookup_iff.2 ((hk name).1 (List.mem_map_of_mem hv)))
      exact ih name v w (Assoc.lookup_of_mem hnodup hv) hw (hdistinct _ hv) k hc

end Same

theorem same_self {R : μ → μ → Prop} (hR : ∀ m, R m m) {a : Value μ}
    (hnan : ∀ k, ¬a.Contains k (.double .nan)) : a.Same R a := by
  induction a using Value.ind with
  | null => exact .null
  | bool x => exact .bool x
  | string x => exact .string x
  | int n => exact .number rfl rfl
  | double x =>
    cases x with
    | nan => exact absurd (.here _) (hnan 0)
    | infinite | finite => exact .number rfl rfl
  | array m as ih =>
    refine .array (hR m) rfl fun i a b ha hb => ?_
    obtain rfl := Option.some.inj (ha.symm.trans hb)
    have hmem := List.mem_of_getElem? ha
    exact ih a hmem fun k hc => hnan k (.item hmem hc)
  | object m as ih =>
    refine .object (hR m) (fun _ => Iff.rfl) fun k a b ha hb => ?_
    obtain rfl := Option.some.inj (ha.symm.trans hb)
    have hmem := Assoc.mem_of_lookup ha
    exact ih _ hmem fun j hc => hnan (j + 1) (.member hmem hc)

/-! ### The main result -/

/-- **Equality is typed equality of values.**  It is symmetric, transitive, and reflexive
exactly for the values without NaN; equal are the values of one shape, with the same keys
in any order, the same texts, truth values and nulls, and numbers of one exact quantity at
the positions of numbers. -/
theorem equal_typed {a : Value μ} {b : Value ν} (ha : a.Distinct) (hb : b.Distinct)
    (c : Value ξ) :
    a.equal b = b.equal a ∧
      (a.equal b = true → b.equal c = true → a.equal c = true) ∧
      (a.equal a = true ↔ ∀ k, ¬a.Contains k (.double .nan)) ∧
      (a.equal b = true ↔ a.Matches b) := by
  refine ⟨?_, fun hab hbc => ?_, ?_, equal_iff ha⟩
  · rw [Bool.eq_iff_iff, equal_iff ha, equal_iff hb]
    exact ⟨Same.symm, Same.symm⟩
  · rw [equal_iff ha] at hab ⊢
    rw [equal_iff hb] at hbc
    exact (hab.trans hbc).mono fun _ _ _ => trivial
  · rw [equal_iff ha]
    exact ⟨fun h => h.not_contains_nan ha, same_self fun _ => trivial⟩

/-- Two objects with their members in different orders, one with a whole number and one
with the same number as a double. -/
theorem equal_typed_reordered :
    (object () [("a", int 1), ("b", .bool true)] : Json).Matches
      (object () [("b", .bool true), ("a", double (.finite false 1023 0))] : Json) := by
  have ha : (object () [("a", int 1), ("b", .bool true)] : Json).Distinct := by
    refine distinct_object_iff.2 ⟨by decide, List.forall_mem_cons.2 ⟨?_, ?_⟩⟩
    · exact distinct_of_mark?_eq_none rfl
    · exact List.forall_mem_singleton.2 (distinct_of_mark?_eq_none rfl)
  have hb : (object () [("b", .bool true), ("a", double (.finite false 1023 0))] :
      Json).Distinct := by
    refine distinct_object_iff.2 ⟨by decide, List.forall_mem_cons.2 ⟨?_, ?_⟩⟩
    · exact distinct_of_mark?_eq_none rfl
    · exact List.forall_mem_singleton.2 (distinct_of_mark?_eq_none rfl)
  exact (equal_typed ha hb (null : Json)).2.2.2.1 (by decide)

end JsonPaths.Value
