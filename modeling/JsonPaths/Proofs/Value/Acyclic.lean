/-
JsonPaths/Proofs/Value/Acyclic.lean

The object graph of a tree.

The containers of a tree are known by their marks, and a container refers to those
among its items or members (`Refers`).  In a consistent tree a mark stands for one
container, so that what it refers to is a part of it wherever it occurs; as trees
are finite, no chain of references leads back to where it started
(`Consistent.acyclic`).
-/
import Mathlib.Logic.Relation
import JsonPaths.Proofs.Value.LeafOrder

namespace JsonPaths.Value

variable {μ : Type}

/-- `v.Refers m n`: in `v` the container with the mark `n` is an item or a member of
the container with the mark `m`. -/
def Refers (v : Value μ) (m n : μ) : Prop :=
  ∃ k a, v.Contains k a ∧ a.mark? = some m ∧ ∃ c ∈ a.children, c.2.mark? = some n

/-- No container is reached from itself. -/
def Acyclic (v : Value μ) : Prop := ∀ m, ¬Relation.TransGen v.Refers m m

theorem contains_of_mem_children {v : Value μ} {c : Step × Value μ} (h : c ∈ v.children) :
    v.Contains c.1.depth c.2 := by
  cases v with
  | array m items =>
    obtain ⟨i, hs, hi⟩ := mem_children_array.1 h
    rw [hs]
    exact .item (List.mem_of_getElem? hi) (.here _)
  | object m ms =>
    obtain ⟨k, hs, hk⟩ := mem_children_object.1 h
    rw [hs]
    exact .member hk (.here _)
  | _ => cases h

theorem sizeOf_lt_of_mem_children {v : Value μ} {c : Step × Value μ} (h : c ∈ v.children) :
    sizeOf c.2 < sizeOf v := by
  cases v with
  | array m items =>
    obtain ⟨i, -, hi⟩ := mem_children_array.1 h
    have hlt := List.sizeOf_lt_of_mem (List.mem_of_getElem? hi)
    simp only [array.sizeOf_spec]
    omega
  | object m ms =>
    obtain ⟨k, -, hk⟩ := mem_children_object.1 h
    have hlt := List.sizeOf_lt_of_mem hk
    simp only [object.sizeOf_spec, Prod.mk.sizeOf_spec] at hlt ⊢
    omega
  | _ => cases h

/-- What a container refers to in some steps is a smaller part of it, wherever the
container occurs. -/
theorem Consistent.part_of_refers {v : Value μ} (hc : v.Consistent) {m n : μ}
    (h : Relation.TransGen v.Refers m n) {k : Nat} {a : Value μ} (ha : v.Contains k a)
    (hm : a.mark? = some m) :
    ∃ j b, v.Contains j b ∧ b.mark? = some n ∧ sizeOf b < sizeOf a := by
  -- one step goes to a child, as a mark stands for one container
  have step : ∀ {m n k a}, v.Refers m n → v.Contains k a → a.mark? = some m →
      ∃ j b, v.Contains j b ∧ b.mark? = some n ∧ sizeOf b < sizeOf a := by
    rintro m n k a ⟨k', a', ha', hm', c, hmem, hn⟩ ha hm
    obtain ⟨rfl, -⟩ := hc ha ha' hm hm'
    exact ⟨_, c.2, ha.trans (contains_of_mem_children hmem), hn, sizeOf_lt_of_mem_children hmem⟩
  induction h with
  | single h => exact step h ha hm
  | tail _ h ih =>
    obtain ⟨j, b, hb, hmb, hlt⟩ := ih
    obtain ⟨j', b', hb', hmb', hlt'⟩ := step h hb hmb
    exact ⟨j', b', hb', hmb', Nat.lt_trans hlt' hlt⟩

/-- **The object graph of a consistent tree has no cycle.** -/
theorem Consistent.acyclic {v : Value μ} (hc : v.Consistent) : v.Acyclic := by
  intro m h
  obtain ⟨k, a, ha, hm⟩ : ∃ k a, v.Contains k a ∧ a.mark? = some m := by
    obtain ⟨n, ⟨k, a, ha, hm, -⟩, -⟩ := Relation.TransGen.head'_iff.1 h
    exact ⟨k, a, ha, hm⟩
  obtain ⟨j, b, hb, hmb, hlt⟩ := hc.part_of_refers h ha hm
  obtain ⟨rfl, -⟩ := hc ha hb hm hmb
  exact Nat.lt_irrefl _ hlt

end JsonPaths.Value
