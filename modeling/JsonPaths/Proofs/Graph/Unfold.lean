/-
JsonPaths/Proofs/Graph/Unfold.lean

What a value graph unfolds to.

Where a graph spells out a value it unfolds to one tree, in which every container has the
number of its node for a mark (`Spells.exists_unfolds`, `Unfolds.unique`).  No node is
below itself there, since it would stand for a tree that is larger than itself.  So the
containers on one way down are different nodes, and a walk that may go as deep as there
are nodes is not cut off: what it comes to is proved by induction on the tree
(`Unfolds.descend`).
-/
import JsonPaths.Proofs.Graph.Preorder
import JsonPaths.Proofs.Related

namespace JsonPaths

/-- The value that a node which is no container stands for. -/
def Node.scalar? {μ : Type} : Node → Option (Value μ)
  | .null => some .null
  | .bool b => some (.bool b)
  | .int n => some (.int n)
  | .double x => some (.double x)
  | .string s => some (.string s)
  | _ => none

namespace Graph

variable {g : Graph} {i : Nat} {v w : Shared}

/-- A member of an object in a graph and one of an object in a tree: the key is the text of
the name, and the node is related to the value. -/
abbrev Member {α : Type} (R : Nat → α → Prop) : Key × Nat → String × α → Prop :=
  Assoc.Paired (fun k s => k = Key.text s) R

/-- Texts are one key if they are equal. -/
theorem text_beq {k k' : Key} {s s' : String} (h : k = .text s) (h' : k' = .text s') :
    (k == k') = (s == s') := by
  rw [h, h']
  rfl

/-- The graph unfolds to a tree at a node: they are of one kind, with equal scalars, the
items in one order and the members in one order under the same keys, and every container
in the tree has the number of its node for a mark. -/
inductive Unfolds (g : Graph) : Nat → Shared → Prop
  | scalar {i : Nat} {v : Shared} : (g.node i).scalar? = some v → Unfolds g i v
  | array {i : Nat} {is : List Nat} {vs : List Shared} :
      g.node i = .array is → is.length = vs.length →
      (∀ (k : Nat) j v, is[k]? = some j → vs[k]? = some v → Unfolds g j v) →
      Unfolds g i (.array i vs)
  | object {i : Nat} {ms : List (Key × Nat)} {vs : List (String × Shared)} :
      g.node i = .object ms →
      ms.map Prod.fst = vs.map (fun p => Key.text p.1) →
      (∀ (k : Nat) n p, ms[k]? = some n → vs[k]? = some p → Unfolds g n.2 p.2) →
      Unfolds g i (.object i vs)

theorem forall₂_member_iff {α : Type} {R : Nat → α → Prop} {ms : List (Key × Nat)}
    {vs : List (String × α)} :
    List.Forall₂ (Member R) ms vs ↔
      ms.map Prod.fst = vs.map (fun p => Key.text p.1) ∧
        ∀ (k : Nat) n p, ms[k]? = some n → vs[k]? = some p → R n.2 p.2 := by
  rw [← List.forall₂_eq_eq_eq, List.forall₂_map_left_iff, List.forall₂_map_right_iff,
    List.forall₂_iff_getElem?, List.forall₂_iff_getElem?]
  constructor
  · rintro ⟨hl, h⟩
    exact ⟨⟨hl, fun k n p hn hp => (h k n p hn hp).1⟩, fun k n p hn hp => (h k n p hn hp).2⟩
  · rintro ⟨⟨hl, hkeys⟩, h⟩
    exact ⟨hl, fun k n p hn hp => ⟨hkeys k n p hn hp, h k n p hn hp⟩⟩

/-- Induction on what a graph unfolds to. -/
theorem Unfolds.ind {motive : ∀ (i : Nat) (v : Shared), g.Unfolds i v → Prop}
    (scalar : ∀ i v (h : (g.node i).scalar? = some v), motive i v (.scalar h))
    (array : ∀ i is vs, g.node i = .array is →
      List.Forall₂ (fun j v => ∃ h : g.Unfolds j v, motive j v h) is vs →
      ∀ h, motive i (.array i vs) h)
    (object : ∀ i ms vs, g.node i = .object ms →
      List.Forall₂ (Member fun j v => ∃ h : g.Unfolds j v, motive j v h) ms vs →
      ∀ h, motive i (.object i vs) h)
    (h : g.Unfolds i v) : motive i v h := by
  induction h with
  | scalar h => exact scalar _ _ h
  | array hn hl h ih =>
    refine array _ _ _ hn (List.forall₂_iff_getElem?.2 ⟨hl, fun k j v hj hv => ?_⟩) _
    exact ⟨h k j v hj hv, ih k j v hj hv⟩
  | object hn hkeys h ih =>
    refine object _ _ _ hn (forall₂_member_iff.2 ⟨hkeys, fun k n p hn hp => ?_⟩) _
    exact ⟨h k n p hn hp, ih k n p hn hp⟩

theorem unfolds_array {is : List Nat} {vs : List Shared} (hn : g.node i = .array is)
    (h : List.Forall₂ g.Unfolds is vs) : g.Unfolds i (.array i vs) :=
  .array hn h.length_eq (List.forall₂_iff_getElem?.1 h).2

theorem unfolds_object {ms : List (Key × Nat)} {vs : List (String × Shared)}
    (hn : g.node i = .object ms) (h : List.Forall₂ (Member g.Unfolds) ms vs) :
    g.Unfolds i (.object i vs) :=
  .object hn (forall₂_member_iff.1 h).1 (forall₂_member_iff.1 h).2

/-! ### One tree at a node -/

theorem Spells.of_scalar {μ : Type} {v : Value μ} (h : (g.node i).scalar? = some v) :
    g.Spells i v := by
  cases hn : g.node i <;> rw [hn] at h <;> cases h
  · exact .null hn
  · exact .bool hn
  · exact .int hn
  · exact .double hn
  · exact .string hn

/-- A tree is the value that the graph spells out at the node. -/
theorem Unfolds.spells (h : g.Unfolds i v) : g.Spells i v.erase := by
  induction h using Unfolds.ind with
  | scalar i v h =>
    refine .of_scalar ?_
    cases hn : g.node i <;> rw [hn] at h <;> cases h <;> rfl
  | array i is vs hn h _ =>
    rw [Value.erase_array]
    have hvs : List.Forall₂ g.Spells is (vs.map Value.erase) :=
      List.forall₂_map_right_iff.2 (h.imp fun _ _ h => h.2)
    exact .array hn hvs.length_eq (List.forall₂_iff_getElem?.1 hvs).2
  | object i ms vs hn h _ =>
    rw [Value.erase_object]
    have hvs : List.Forall₂ (Member g.Spells) ms (vs.map fun p => (p.1, p.2.erase)) :=
      List.forall₂_map_right_iff.2 (h.imp fun _ _ h => ⟨h.1, h.2.2⟩)
    exact .object hn (forall₂_member_iff.1 hvs).1 (forall₂_member_iff.1 hvs).2

/-- **Where a graph spells out a value it unfolds to a tree.** -/
theorem Spells.exists_unfolds {v : Json} (h : g.Spells i v) :
    ∃ u, g.Unfolds i u ∧ u.erase = v := by
  induction h with
  | null hn => exact ⟨.null, .scalar (by rw [hn]; rfl), rfl⟩
  | @bool i b hn => exact ⟨.bool b, .scalar (by rw [hn]; rfl), rfl⟩
  | @int i n hn => exact ⟨.int n, .scalar (by rw [hn]; rfl), rfl⟩
  | @double i x hn => exact ⟨.double x, .scalar (by rw [hn]; rfl), rfl⟩
  | @string i s hn => exact ⟨.string s, .scalar (by rw [hn]; rfl), rfl⟩
  | @array i is m vs hn hl _ ih =>
    obtain ⟨us, hus, rfl⟩ := (List.forall₂_iff_getElem?.2 ⟨hl, ih⟩).exists_map
    exact ⟨.array i us, unfolds_array hn hus, Value.erase_array i us⟩
  | @object i ms m vs hn hkeys _ ih =>
    have hparts : List.Forall₂ (Member fun j v => ∃ u, g.Unfolds j u ∧ u.erase = v) ms vs :=
      forall₂_member_iff.2 ⟨hkeys, ih⟩
    obtain ⟨us, hus, rfl⟩ : ∃ us, List.Forall₂ (Member g.Unfolds) ms us ∧
        us.map (fun p => (p.1, p.2.erase)) = vs := by
      refine (hparts.imp fun n p hp => ?_).exists_map
      obtain ⟨hk, u, hu, he⟩ := hp
      exact ⟨(p.1, u), ⟨hk, hu⟩, Prod.ext rfl he⟩
    exact ⟨.object i us, unfolds_object hn hus, Value.erase_object i us⟩

/-- A graph unfolds to one tree at a node. -/
theorem Unfolds.unique (hv : g.Unfolds i v) (hw : g.Unfolds i w) : v = w := by
  induction hv using Unfolds.ind generalizing w with
  | scalar i v h =>
    cases hw with
    | scalar h' => exact Option.some.inj (h.symm.trans h')
    | array hn | object hn => rw [hn] at h; cases h
  | array i is vs hn h _ =>
    cases hw with
    | scalar h' => rw [hn] at h'; cases h'
    | object hn' => cases hn.symm.trans hn'
    | array hn' hl hws =>
      obtain rfl := Node.array.inj (hn.symm.trans hn')
      exact congrArg _ (h.eq_of_unique (List.forall₂_iff_getElem?.2 ⟨hl, hws⟩)
        fun _ _ _ hv hw => hv.2 hw)
  | object i ms vs hn h _ =>
    cases hw with
    | scalar h' => rw [hn] at h'; cases h'
    | array hn' => cases hn.symm.trans hn'
    | object hn' hkeys hws =>
      obtain rfl := Node.object.inj (hn.symm.trans hn')
      refine congrArg _ (h.eq_of_unique (forall₂_member_iff.2 ⟨hkeys, hws⟩) ?_)
      rintro n p q ⟨hk, -, hv⟩ ⟨hk', hw⟩
      exact Prod.ext (Key.text.inj (hk.symm.trans hk')) (hv hw)

/-! ### The way down -/

/-- The nodes `above` stand for trees that are larger than `v`. -/
def Below (g : Graph) (above : List Nat) (v : Shared) : Prop :=
  ∀ a ∈ above, ∃ w, g.Unfolds a w ∧ sizeOf v < sizeOf w

/-- No node is above itself. -/
theorem Below.notMem {above : List Nat} (hb : g.Below above v) (hv : g.Unfolds i v) :
    i ∉ above := by
  intro hi
  obtain ⟨w, hw, hlt⟩ := hb i hi
  obtain rfl := hv.unique hw
  exact Nat.lt_irrefl _ hlt

theorem Below.cons {above : List Nat} (hb : g.Below above w) (hw : g.Unfolds i w)
    (hlt : sizeOf v < sizeOf w) : g.Below (i :: above) v := by
  refine List.forall_mem_cons.2 ⟨⟨w, hw, hlt⟩, fun a ha => ?_⟩
  obtain ⟨x, hx, hwx⟩ := hb a ha
  exact ⟨x, hx, Nat.lt_trans hlt hwx⟩

theorem idle_nil (n : Nat) : idle [] n = n := by
  induction n with
  | zero => rfl
  | succ n ih => simp [idle, ih]

section Descent

variable {P : Nat → List Nat → Nat → Shared → Prop}
  (scalar : ∀ fuel above i v, (g.node i).scalar? = some v → i ∉ above →
    P (fuel + 1) above i v)
  (array : ∀ fuel above i is vs, g.node i = .array is → i ∉ above →
    List.Forall₂ (fun j v => g.Unfolds j v ∧ P fuel (i :: above) j v) is vs →
    P (fuel + 1) above i (.array i vs))
  (object : ∀ fuel above i ms vs, g.node i = .object ms → i ∉ above →
    List.Forall₂ (Member fun j v => g.Unfolds j v ∧ P fuel (i :: above) j v) ms vs →
    P (fuel + 1) above i (.object i vs))

include scalar array object

theorem Unfolds.descend_below (hv : g.Unfolds i v) {fuel : Nat} {above : List Nat}
    (hb : g.Below above v) (hf : idle above g.nodes.size < fuel) : P fuel above i v := by
  induction hv generalizing fuel above with
  | scalar h =>
    obtain ⟨fuel, rfl⟩ : ∃ k, fuel = k + 1 := ⟨fuel - 1, by omega⟩
    exact scalar fuel above _ _ h (hb.notMem (.scalar h))
  | @array i is vs hn hl h ih =>
    obtain ⟨fuel, rfl⟩ : ∃ k, fuel = k + 1 := ⟨fuel - 1, by omega⟩
    have hne : g.node i ≠ .null := by rw [hn]; exact nofun
    have hi := hb.notMem (.array hn hl h)
    have hidle := idle_cons (lt_size_of_node_ne_null hne) hi
    refine array fuel above i is vs hn hi (List.forall₂_iff_getElem?.2 ⟨hl, fun k j v hj hv => ?_⟩)
    have hlt := List.sizeOf_lt_of_mem (List.mem_of_getElem? hv)
    refine ⟨h k j v hj hv, ih k j v hj hv (hb.cons (.array hn hl h) ?_) (by omega)⟩
    rw [Value.array.sizeOf_spec]
    omega
  | @object i ms vs hn hkeys h ih =>
    obtain ⟨fuel, rfl⟩ : ∃ k, fuel = k + 1 := ⟨fuel - 1, by omega⟩
    have hne : g.node i ≠ .null := by rw [hn]; exact nofun
    have hi := hb.notMem (.object hn hkeys h)
    have hidle := idle_cons (lt_size_of_node_ne_null hne) hi
    refine object fuel above i ms vs hn hi (forall₂_member_iff.2 ⟨hkeys, fun k n p hj hp => ?_⟩)
    have hlt := List.sizeOf_lt_of_mem (List.mem_of_getElem? hp)
    refine ⟨h k n p hj hp, ih k n p hj hp (hb.cons (.object hn hkeys h) ?_) (by omega)⟩
    obtain ⟨name, x⟩ := p
    rw [Prod.mk.sizeOf_spec] at hlt
    rw [Value.object.sizeOf_spec]
    show sizeOf x < _
    omega

/-- **Induction on the way down from a node**, with fuel for more nodes than there are: at
every node there is some fuel left, and no container is above itself. -/
theorem Unfolds.descend (hv : g.Unfolds i v) {fuel : Nat} (hf : g.nodes.size < fuel) :
    P fuel [] i v :=
  hv.descend_below scalar array object (List.forall_mem_nil _) (by rwa [idle_nil])

end Descent

end Graph

end JsonPaths
