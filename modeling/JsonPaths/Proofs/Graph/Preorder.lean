/-
JsonPaths/Proofs/Graph/Preorder.lean

Value graphs in pre-order, and what they spell out.

A position below a node is the list of the child numbers that lead to it, and pre-order
is the lexicographic order of positions: a node comes before what is below it, and what
is below a child before what is below a later one.  A graph with cycles has infinitely
many positions.  A fault of a position is a fault of its node, given the nodes on the way
to it; a clear node has no faults at or below it, any other that the walk comes to has a
first one (`FirstFault`).  A graph spells out a value at a node if the two agree in kinds,
scalars, the order of items and the order of keys (`Spells`).
-/
import JsonPaths.Graph.Check
import JsonPaths.Proofs.Path.Relabel
import JsonPaths.Proofs.Value.Distinct
import Mathlib.Data.List.Lex
import Mathlib.Order.Defs.LinearOrder

namespace JsonPaths.Graph

variable {g : Graph} {above : List Nat} {i : Nat} {π π' : Problem}

/-! ### Faults -/

/-- What is wrong with a node itself that is reached through the nodes `above`: it is of
a kind that JSON does not have, a container that is its own ancestor, or an object whose
first key that is no text is `k`. -/
inductive Faulty (g : Graph) (above : List Nat) (i : Nat) : Problem → Prop
  | unsupported {kind} : (g.node i).kind = .error kind → Faulty g above i (.unsupported kind)
  | arrayCycle {items} : g.node i = .array items → i ∈ above → Faulty g above i .cycle
  | objectCycle {ms} : g.node i = .object ms → i ∈ above → Faulty g above i .cycle
  | badKey {pre k j post} : g.node i = .object (pre ++ (k, j) :: post) → i ∉ above →
      (∀ m ∈ pre, ∃ s, m.1 = .text s) → (∀ s, k ≠ .text s) →
      Faulty g above i (.ofKey k)

/-- The nodes above a position below `i`, the nearest first, and the node there. -/
def descend (g : Graph) (above : List Nat) (i : Nat) : List Nat → Option (List Nat × Nat)
  | [] => some (above, i)
  | k :: p =>
    match (g.children i)[k]? with
    | none => none
    | some j => descend g (i :: above) j p

/-- The fault of a position. -/
def FaultAt (g : Graph) (above : List Nat) (i : Nat) (p : List Nat) (π : Problem) : Prop :=
  ∃ above' j, g.descend above i p = some (above', j) ∧ g.Faulty above' j π

/-- There is no fault at or below a node. -/
def Clear (g : Graph) (above : List Nat) (i : Nat) : Prop := ∀ p π, ¬g.FaultAt above i p π

/-- The fault of the first position that has one. -/
def FirstFault (g : Graph) (above : List Nat) (i : Nat) (π : Problem) : Prop :=
  ∃ p, g.FaultAt above i p π ∧ ∀ q π', q < p → ¬g.FaultAt above i q π'

/-! ### Faults and visits -/

theorem textMembers_eq_error {ms : List (Key × Nat)} : textMembers ms = .error π ↔
    ∃ pre k j post, ms = pre ++ (k, j) :: post ∧ (∀ m ∈ pre, ∃ s, m.1 = .text s) ∧
      (∀ s, k ≠ .text s) ∧ π = .ofKey k := by
  constructor
  · intro h
    induction ms with
    | nil => cases h
    | cons m ms ih =>
      obtain ⟨k, j⟩ := m
      by_cases hk : ∃ s, k = .text s
      · obtain ⟨s, rfl⟩ := hk
        have htail : textMembers ms = .error π := by
          cases hm : textMembers ms with
          | ok ns => simp [textMembers, keyText, hm, bind, Except.bind, pure, Except.pure] at h
          | error π' =>
            simpa [textMembers, keyText, hm, bind, Except.bind] using h
        obtain ⟨pre, k, j', post, rfl, hpre, hk, rfl⟩ := ih htail
        refine ⟨(.text s, j) :: pre, k, j', post, rfl, ?_, hk, rfl⟩
        exact List.forall_mem_cons.2 ⟨⟨s, rfl⟩, hpre⟩
      · simp only [not_exists] at hk
        refine ⟨[], k, j, ms, rfl, List.forall_mem_nil _, hk, ?_⟩
        cases k with
        | text s => exact absurd rfl (hk s)
        | _ => exact (Except.error.inj h).symm
  · rintro ⟨pre, k, j, post, rfl, hpre, hk, rfl⟩
    induction pre with
    | nil =>
      cases k with
      | text s => exact absurd rfl (hk s)
      | _ => rfl
    | cons m pre ih =>
      obtain ⟨⟨s, hs⟩, hrest⟩ := List.forall_mem_cons.1 hpre
      obtain ⟨k', j'⟩ := m
      obtain rfl : k' = .text s := hs
      simp only [List.cons_append, textMembers, keyText, ih hrest, bind, Except.bind]

/-- **A visit stops the walk exactly if the node is faulty below the active nodes.** -/
theorem take_visit_eq_error {w : Walk} {slot : Slot Nat} :
    g.take w (.visit i slot) = .error π ↔ g.Faulty w.active i π := by
  constructor
  · intro h
    rw [take] at h
    split at h
    case h_6 items hn =>
      split at h
      · next hi => exact Except.error.inj h ▸ .arrayCycle hn hi
      · cases h
    case h_7 members hn =>
      split at h
      · next hi => exact Except.error.inj h ▸ .objectCycle hn hi
      · next hi =>
        cases hm : textMembers members with
        | ok ns => simp [hm, bind, Except.bind, pure, Except.pure] at h
        | error π' =>
          obtain ⟨pre, k, j, post, rfl, hpre, hk, rfl⟩ := textMembers_eq_error.1 hm
          simp only [hm, bind, Except.bind, Except.error.injEq] at h
          exact h ▸ .badKey hn hi hpre hk
    all_goals first
      | cases h; done
      | next hn => exact Except.error.inj h ▸ .unsupported (by rw [hn]; rfl)
  · intro h
    cases h with
    | unsupported hk =>
      rw [take]
      cases hn : g.node i <;> rw [hn] at hk <;> cases hk <;> rfl
    | arrayCycle hn hi => rw [take, hn]; exact if_pos hi
    | objectCycle hn hi => rw [take, hn]; exact if_pos hi
    | @badKey pre k j post hn hi hpre hk =>
      have hm : textMembers (pre ++ (k, j) :: post) = .error (.ofKey k) :=
        textMembers_eq_error.2 ⟨pre, k, j, post, rfl, hpre, hk, rfl⟩
      rw [take, hn]
      simp only [if_neg hi, hm, bind, Except.bind]

theorem Faulty.unique (h : g.Faulty above i π) (h' : g.Faulty above i π') : π = π' := by
  let w : Walk := ⟨[], above, .null, 0⟩
  have hw : g.take w (.visit i ⟨0, .index 0⟩) = .error π := take_visit_eq_error.2 h
  have hw' : g.take w (.visit i ⟨0, .index 0⟩) = .error π' := take_visit_eq_error.2 h'
  exact Except.error.inj (hw.symm.trans hw')

/-! ### Positions -/

theorem faultAt_nil : g.FaultAt above i [] π ↔ g.Faulty above i π := by
  constructor
  · rintro ⟨above', j, h, hf⟩
    cases h
    exact hf
  · exact fun h => ⟨above, i, rfl, h⟩

theorem faultAt_cons {k : Nat} {p : List Nat} : g.FaultAt above i (k :: p) π ↔
    ∃ j, (g.children i)[k]? = some j ∧ g.FaultAt (i :: above) j p π := by
  unfold FaultAt
  rw [descend]
  cases (g.children i)[k]? with
  | none => simp
  | some j => simp

theorem clear_iff : g.Clear above i ↔
    (∀ π, ¬g.Faulty above i π) ∧ ∀ j ∈ g.children i, g.Clear (i :: above) j := by
  constructor
  · intro h
    refine ⟨fun π hf => h [] π (faultAt_nil.2 hf), fun j hj p π hf => ?_⟩
    obtain ⟨k, hk⟩ := List.mem_iff_getElem?.1 hj
    exact h (k :: p) π (faultAt_cons.2 ⟨j, hk, hf⟩)
  · rintro ⟨hi, hc⟩ p π hf
    cases p with
    | nil => exact hi π (faultAt_nil.1 hf)
    | cons k p =>
      obtain ⟨j, hj, hf⟩ := faultAt_cons.1 hf
      exact hc j (List.mem_of_getElem? hj) p π hf

theorem firstFault_of_faulty (h : g.Faulty above i π) : g.FirstFault above i π := by
  refine ⟨[], faultAt_nil.2 h, fun q _ hq => ?_⟩
  exact absurd hq (List.not_lt_nil q)

/-- The first fault below a node that has none itself is the first fault below the first
child that is not clear. -/
theorem firstFault_of_child {k j : Nat} (hi : ∀ π, ¬g.Faulty above i π)
    (hj : (g.children i)[k]? = some j) (h : g.FirstFault (i :: above) j π)
    (hc : ∀ k' j', k' < k → (g.children i)[k']? = some j' → g.Clear (i :: above) j') :
    g.FirstFault above i π := by
  obtain ⟨p, hp, hfirst⟩ := h
  refine ⟨k :: p, faultAt_cons.2 ⟨j, hj, hp⟩, fun q π' hq hf => ?_⟩
  cases q with
  | nil => exact hi π' (faultAt_nil.1 hf)
  | cons k' q =>
    obtain ⟨j', hj', hf⟩ := faultAt_cons.1 hf
    rcases List.cons_lt_cons_iff.1 hq with hlt | ⟨rfl, hlt⟩
    · exact hc k' j' hlt hj' q π' hf
    · obtain rfl := Option.some.inj (hj.symm.trans hj')
      exact hfirst q π' hlt hf

theorem FirstFault.not_clear (h : g.FirstFault above i π) : ¬g.Clear above i := by
  obtain ⟨p, hp, -⟩ := h
  exact fun hc => hc p π hp

theorem FirstFault.unique (h : g.FirstFault above i π) (h' : g.FirstFault above i π') :
    π = π' := by
  obtain ⟨p, ⟨a, j, hd, hf⟩, hp⟩ := h
  obtain ⟨q, ⟨a', j', hd', hf'⟩, hq⟩ := h'
  rcases lt_trichotomy p q with hlt | rfl | hlt
  · exact absurd ⟨a, j, hd, hf⟩ (hq p π hlt)
  · obtain ⟨rfl, rfl⟩ := Prod.mk.inj (Option.some.inj (hd.symm.trans hd'))
    exact hf.unique hf'
  · exact absurd ⟨a', j', hd', hf'⟩ (hp q π' hlt)

/-! ### What a graph spells out -/

section Spelling

variable {μ : Type}

/-- The graph spells out a value at a node: the two are of one kind, with equal scalars,
with the items in one order and the members in one order under the same keys. -/
inductive Spells (g : Graph) : Nat → Value μ → Prop
  | null {i : Nat} : g.node i = .null → Spells g i .null
  | bool {i : Nat} {b} : g.node i = .bool b → Spells g i (.bool b)
  | int {i : Nat} {n} : g.node i = .int n → Spells g i (.int n)
  | double {i : Nat} {x} : g.node i = .double x → Spells g i (.double x)
  | string {i : Nat} {s} : g.node i = .string s → Spells g i (.string s)
  | array {i : Nat} {is : List Nat} {m : μ} {vs : List (Value μ)} :
      g.node i = .array is → is.length = vs.length →
      (∀ (k : Nat) j v, is[k]? = some j → vs[k]? = some v → Spells g j v) →
      Spells g i (.array m vs)
  | object {i : Nat} {ms : List (Key × Nat)} {m : μ} {vs : List (String × Value μ)} :
      g.node i = .object ms →
      ms.map Prod.fst = vs.map (fun p => Key.text p.1) →
      (∀ (k : Nat) n p, ms[k]? = some n → vs[k]? = some p → Spells g n.2 p.2) →
      Spells g i (.object m vs)

/-- No object of the graph has one key twice. -/
def KeysDistinct (g : Graph) : Prop :=
  ∀ i ms, g.node i = .object ms → ms.Pairwise fun a b => Key.same a.1 b.1 = false

/-- Texts are different keys exactly if they are different. -/
theorem pairwise_text_iff {α : Type} {ms : List (String × α)} :
    (ms.map fun p => Key.text p.1).Pairwise (fun a b => Key.same a b = false) ↔
      (Assoc.keys ms).Nodup := by
  rw [Assoc.keys, List.Nodup, List.pairwise_map, List.pairwise_map]
  simp [Key.same]

theorem Spells.of_erase {i : Nat} {v : Value μ} (h : g.Spells i v.erase) : g.Spells i v := by
  induction v using Value.ind generalizing i with
  | null => cases h with | null hn => exact .null hn
  | bool b => cases h with | bool hn => exact .bool hn
  | int n => cases h with | int hn => exact .int hn
  | double x => cases h with | double hn => exact .double hn
  | string s => cases h with | string hn => exact .string hn
  | array m vs ih =>
    rw [Value.erase_array] at h
    cases h with
    | array hn hl hv =>
      refine .array hn (by simpa using hl) fun k j v hj hv' => ?_
      refine ih v (List.mem_of_getElem? hv') (hv k j v.erase hj ?_)
      rw [List.getElem?_map, hv']
      rfl
  | object m vs ih =>
    rw [Value.erase_object] at h
    cases h with
    | object hn hk hv =>
      refine .object hn (by simpa [Function.comp_def] using hk) fun k n p hj hp => ?_
      refine ih p (List.mem_of_getElem? hp) (hv k n (p.1, p.2.erase) hj ?_)
      rw [List.getElem?_map, hp]
      rfl

/-- A value that a graph spells out has no key twice if the graph has none. -/
theorem Spells.distinct (hg : g.KeysDistinct) {i : Nat} {v : Value μ} (h : g.Spells i v) :
    v.Distinct := by
  induction h with
  | null | bool | int | double | string => exact Value.distinct_of_mark?_eq_none rfl
  | @array i is m vs hn hl hv ih =>
    refine Value.distinct_array_iff.2 fun v hv' => ?_
    obtain ⟨k, hk⟩ := List.mem_iff_getElem?.1 hv'
    obtain ⟨hlt, -⟩ := List.getElem?_eq_some_iff.1 hk
    exact ih k _ v (List.getElem?_eq_getElem (hl ▸ hlt)) hk
  | @object i ms m vs hn hkeys hv ih =>
    refine Value.distinct_object_iff.2 ⟨?_, fun p hp => ?_⟩
    · have hpair : (ms.map Prod.fst).Pairwise fun a b => Key.same a b = false :=
        List.pairwise_map.2 (hg i ms hn)
      exact pairwise_text_iff.1 (hkeys ▸ hpair)
    · obtain ⟨k, hk⟩ := List.mem_iff_getElem?.1 hp
      have hlen : ms.length = vs.length := by simpa using congrArg List.length hkeys
      obtain ⟨hlt, -⟩ := List.getElem?_eq_some_iff.1 hk
      exact ih k _ p (List.getElem?_eq_getElem (hlen ▸ hlt)) hk

end Spelling

end JsonPaths.Graph
