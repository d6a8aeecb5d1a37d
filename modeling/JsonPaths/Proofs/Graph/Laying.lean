/-
JsonPaths/Proofs/Graph/Laying.lean

Values as nodes of a graph.

The nodes that are added for a JSON value spell it out, in the graph that they have been
added to and in every graph that has these nodes too (`added_addJson`).  The nodes of an
outline are added to a graph without a change to its nodes (`lay_extends`), so that JSON
values which have been added before are still spelled out there.
-/
import JsonPaths.Graph.Outline
import JsonPaths.Proofs.Graph.Preorder
import JsonPaths.Proofs.Related

namespace JsonPaths

namespace Graph

variable {g g' h : Graph} {i : Nat} {v : Json}

/-! ### Graphs with more nodes -/

/-- All nodes of `g` are nodes of `h`, with the same numbers. -/
def Extends (g h : Graph) : Prop :=
  ∀ (i : Nat) n, g.nodes[i]? = some n → h.nodes[i]? = some n

theorem Extends.refl (g : Graph) : g.Extends g := fun _ _ hn => hn

theorem Extends.trans (hg : g.Extends g') (hg' : g'.Extends h) : g.Extends h :=
  fun i n hn => hg' i n (hg i n hn)

theorem extends_add (g : Graph) (n : Node) : g.Extends (g.add n).2 := by
  intro i n' hn
  obtain ⟨hi, -⟩ := Array.getElem?_eq_some_iff.1 hn
  rw [add, Array.getElem?_push_lt hi, ← hn, Array.getElem?_eq_getElem hi]

/-- A node that has been added may be made another one. -/
theorem Extends.put (hg : g.Extends h) {i : Nat} (hi : g.nodes.size ≤ i) (n : Node) :
    g.Extends (h.put i n) := by
  intro j n' hn
  obtain ⟨hj, -⟩ := Array.getElem?_eq_some_iff.1 hn
  rw [Graph.put, Array.getElem?_setIfInBounds_ne (by omega)]
  exact hg j n' hn
/-- A node that has been added stays where it is. -/
theorem node_of_add {n : Node} (hh : (g.add n).2.Extends h) : h.node (g.add n).1 = n := by
  have hn : (g.add n).2.nodes[(g.add n).1]? = some n := Array.getElem?_push_size
  rw [node, hh _ n hn]
  rfl

theorem KeysDistinct.add (hg : g.KeysDistinct) {n : Node}
    (hn : ∀ ms, n = .object ms → ms.Pairwise fun a b => Key.same a.1 b.1 = false) :
    (g.add n).2.KeysDistinct := by
  intro i ms hi
  rw [node, Graph.add, Array.getElem?_push] at hi
  split at hi
  · exact hn ms hi
  · exact hg i ms hi

/-! ### JSON values as nodes -/

/-- What has been added to `g` for values: they are spelled out at the new nodes, in every
graph that has these too. -/
structure Added (g : Graph) (is : List Nat) (vs : List Json) (g' : Graph) : Prop where
  kept : g.Extends g'
  spells : ∀ h : Graph, g'.Extends h → List.Forall₂ h.Spells is vs
  keysDistinct : g.KeysDistinct → (∀ v ∈ vs, v.Distinct) → g'.KeysDistinct

namespace Added

variable {is : List Nat} {vs : List Json}

theorem nil (g : Graph) : g.Added [] [] g := ⟨.refl g, fun _ _ => .nil, fun hg _ => hg⟩

theorem cons (hv : g.Added [i] [v] g') (hvs : g'.Added is vs h) :
    g.Added (i :: is) (v :: vs) h where
  kept := hv.kept.trans hvs.kept
  spells h' hh := by
    cases hv.spells h' (hvs.kept.trans hh) with
    | cons hi _ => exact .cons hi (hvs.spells h' hh)
  keysDistinct hg hd := by
    obtain ⟨hdv, hdvs⟩ := List.forall_mem_cons.1 hd
    exact hvs.keysDistinct (hv.keysDistinct hg (List.forall_mem_singleton.2 hdv)) hdvs

/-- A node for a value is added after the nodes of its parts. -/
theorem add (hvs : g.Added is vs g') (n : Node)
    (hspells : ∀ (h : Graph) (i : Nat), List.Forall₂ h.Spells is vs → h.node i = n → h.Spells i v)
    (hparts : v.Distinct → ∀ w ∈ vs, w.Distinct)
    (hkeys : v.Distinct → ∀ ms, n = .object ms →
      ms.Pairwise fun a b => Key.same a.1 b.1 = false) :
    g.Added [(g'.add n).1] [v] (g'.add n).2 where
  kept := hvs.kept.trans (extends_add g' n)
  spells h hh := .cons (hspells h _ (hvs.spells h ((extends_add g' n).trans hh)) (node_of_add hh))
    .nil
  keysDistinct hg hd := by
    have hv := List.forall_mem_singleton.1 hd
    exact (hvs.keysDistinct hg (hparts hv)).add (hkeys hv)

/-- The node of a value without parts. -/
theorem leaf (g : Graph) {n : Node} (hspells : ∀ (h : Graph) (i : Nat), h.node i = n → h.Spells i v)
    (hn : ∀ ms, n ≠ .object ms) : g.Added [(g.add n).1] [v] (g.add n).2 :=
  (nil g).add n (fun h i _ => hspells h i) (fun _ => List.forall_mem_nil _)
    fun _ ms e => absurd e (hn ms)

end Added

theorem addJsonMembers_eq (g : Graph) (ms : List (String × Json)) :
    g.addJsonMembers ms
      = ((ms.map fun p => Key.text p.1).zip (g.addJsonItems (ms.map Prod.snd)).1,
        (g.addJsonItems (ms.map Prod.snd)).2) := by
  induction ms generalizing g with
  | nil => rfl
  | cons p ms ih =>
    simp only [addJsonMembers, addJsonItems, ih, List.map_cons, List.zip_cons_cons]

theorem added_addJsonItems {vs : List Json}
    (hvs : ∀ v ∈ vs, ∀ g : Graph, g.Added [(g.addJson v).1] [v] (g.addJson v).2) (g : Graph) :
    g.Added (g.addJsonItems vs).1 vs (g.addJsonItems vs).2 := by
  induction vs generalizing g with
  | nil => exact .nil g
  | cons v vs ih =>
    obtain ⟨hv, hvs⟩ := List.forall_mem_cons.1 hvs
    exact (hv g).cons (ih hvs _)

/-- **The nodes of a JSON value spell it out.** -/
theorem added_addJson (g : Graph) (v : Json) :
    g.Added [(g.addJson v).1] [v] (g.addJson v).2 := by
  induction v using Value.ind generalizing g with
  | null => exact .leaf g (fun _ _ => .null) nofun
  | bool b => exact .leaf g (fun _ _ => .bool) nofun
  | int n => exact .leaf g (fun _ _ => .int) nofun
  | double x => exact .leaf g (fun _ _ => .double) nofun
  | string s => exact .leaf g (fun _ _ => .string) nofun
  | array m vs ih =>
    refine (added_addJsonItems ih g).add _ (fun h i hvs hn => ?_) Value.distinct_array_iff.1 nofun
    exact .array hn hvs.length_eq (List.forall₂_iff_getElem?.1 hvs).2
  | object m ms ih =>
    have hitems := added_addJsonItems (List.forall_mem_map.2 ih) g
    have hl := (hitems.spells _ (.refl _)).length_eq
    rw [List.length_map] at hl
    have hkeys : ((ms.map fun p => Key.text p.1).zip (g.addJsonItems (ms.map Prod.snd)).1).map
        Prod.fst = ms.map fun p => Key.text p.1 := List.map_fst_zip (by simp [hl])
    rw [addJson, addJsonMembers_eq]
    refine hitems.add _ (fun h i hvs hn => ?_) (fun hd => ?_) (fun hd ms' e => ?_)
    · refine .object hn hkeys fun k n p hk hp => ?_
      refine (List.forall₂_iff_getElem?.1 hvs).2 k n.2 p.2 (List.getElem?_zip_eq_some.1 hk).2 ?_
      rw [List.getElem?_map, hp]
      rfl
    · exact List.forall_mem_map.2 (Value.distinct_object_iff.1 hd).2
    · obtain rfl := Node.object.inj e
      have hnodup := pairwise_text_iff.2 (Value.distinct_object_iff.1 hd).1
      rw [← hkeys] at hnodup
      exact List.pairwise_map.1 hnodup

end Graph

/-! ### Outlines as nodes -/

namespace Outline

open Graph

mutual

theorem extends_layIn {enclosing : List Nat} {b b' : Builder} {i : Nat} (o : Outline)
    (h : layIn enclosing b o = .ok (i, b')) : b.graph.Extends b'.graph := by
  cases o with
  | text s =>
    rw [layIn] at h
    split at h
    · next v _ =>
      cases h
      exact (added_addJson b.graph v).kept
    · cases h
  | json v =>
    rw [layIn] at h
    cases h
    exact (added_addJson b.graph v).kept
  | array items =>
    rw [layIn] at h
    obtain ⟨⟨is, b₁⟩, hitems, h⟩ := Except.bind_eq_ok.1 h
    cases h
    exact ((extends_add _ _).trans (extends_layItems items hitems)).put (Nat.le_refl _) _
  | object members =>
    rw [layIn] at h
    obtain ⟨⟨ms, b₁⟩, hms, h⟩ := Except.bind_eq_ok.1 h
    cases h
    exact ((extends_add _ _).trans (extends_layMembers members hms)).put (Nat.le_refl _) _
  | tuple items =>
    rw [layIn] at h
    obtain ⟨⟨is, b₁⟩, hitems, h⟩ := Except.bind_eq_ok.1 h
    cases h
    exact (extends_layItems items hitems).trans (extends_add _ _)
  | bytes s | emptySet | plainObject =>
    rw [layIn] at h
    cases h
    exact extends_add _ _
  | up n =>
    rw [layIn] at h
    split at h
    · cases h
      exact .refl _
    · cases h
      exact extends_add _ _
  | named name part =>
    rw [layIn] at h
    split at h
    · cases h
      exact .refl _
    · obtain ⟨⟨j, b₁⟩, hpart, h⟩ := Except.bind_eq_ok.1 h
      cases h
      show b.graph.Extends b₁.graph
      exact extends_layIn part hpart

theorem extends_layItems {enclosing : List Nat} {b b' : Builder} {is : List Nat}
    (os : List Outline) (h : layItems enclosing b os = .ok (is, b')) :
    b.graph.Extends b'.graph := by
  cases os with
  | nil =>
    rw [layItems] at h
    cases h
    exact .refl _
  | cons o os =>
    rw [layItems] at h
    obtain ⟨⟨j, b₁⟩, ho, h⟩ := Except.bind_eq_ok.1 h
    obtain ⟨⟨js, b₂⟩, hos, h⟩ := Except.bind_eq_ok.1 h
    cases h
    exact (extends_layIn o ho).trans (extends_layItems os hos)

theorem extends_layMembers {enclosing : List Nat} {b b' : Builder} {done ms : List (Key × Nat)}
    (os : List (Outline × Outline)) (h : layMembers enclosing b done os = .ok (ms, b')) :
    b.graph.Extends b'.graph := by
  cases os with
  | nil =>
    rw [layMembers] at h
    cases h
    exact .refl _
  | cons o os =>
    obtain ⟨k, v⟩ := o
    rw [layMembers] at h
    obtain ⟨⟨j, b₁⟩, hv, h⟩ := Except.bind_eq_ok.1 h
    obtain ⟨⟨j', b₂⟩, hk, h⟩ := Except.bind_eq_ok.1 h
    obtain ⟨key, -, h⟩ := Except.bind_eq_ok.1 h
    exact ((extends_layIn v hv).trans (extends_layIn k hk)).trans (extends_layMembers os h)

end

/-- **The nodes of an outline are added to those that there are.** -/
theorem lay_extends {o : Outline} {g h : Graph} {i : Nat} (hl : o.lay g = .ok (i, h)) :
    g.Extends h := by
  obtain ⟨⟨j, b⟩, hb, hl⟩ := Except.bind_eq_ok.1 hl
  cases hl
  exact extends_layIn o hb

/-- An outline that stands for JSON is laid as that value is. -/
theorem lay_json {o : Outline} {w : Json} (ho : o.candidate = .ok (.json w)) (g : Graph) :
    o.lay g = .ok (g.addJson w) := by
  cases o with
  | text s =>
    rw [candidate] at ho
    split at ho
    · next v hread =>
      cases ho
      rw [lay, layIn, hread]
      rfl
    · cases ho
  | json v =>
    cases ho
    rfl
  | _ =>
    simp only [candidate] at ho
    obtain ⟨p, -, hp⟩ := Except.map_eq_ok.1 ho
    cases hp

end Outline

end JsonPaths
