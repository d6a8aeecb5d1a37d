/-
JsonPaths/Proofs/Related.lean

Lists that are related item by item, optional values that are related if there are any,
and maps that are related pair by pair.
-/
import JsonPaths.Assoc
import JsonPaths.Proofs.Except
import Mathlib.Data.List.Forall2

namespace List

variable {α β : Type} {R : α → β → Prop} {l : List α} {l' : List β}

theorem all_congr_of_mem {p q : α → Bool} (h : ∀ a ∈ l, p a = q a) : l.all p = l.all q := by
  rw [Bool.eq_iff_iff, all_eq_true, all_eq_true]
  exact forall₂_congr fun a ha => by rw [h a ha]

theorem forall₂_iff_getElem? : Forall₂ R l l' ↔ l.length = l'.length ∧
    ∀ (i : Nat) a b, l[i]? = some a → l'[i]? = some b → R a b := by
  rw [forall₂_iff_get]
  refine and_congr_right fun _ => ⟨fun h i a b ha hb => ?_, fun h i hi hi' => ?_⟩
  · obtain ⟨hi, rfl⟩ := getElem?_eq_some_iff.1 ha
    obtain ⟨hi', rfl⟩ := getElem?_eq_some_iff.1 hb
    exact h i hi hi'
  · exact h i _ _ (getElem?_eq_getElem hi) (getElem?_eq_getElem hi')

theorem Forall₂.forall_left {P : α → Prop} (h : Forall₂ R l l') (hP : ∀ a b, R a b → P a) :
    ∀ a ∈ l, P a := by
  induction h with
  | nil => exact forall_mem_nil P
  | cons hab _ ih => exact forall_mem_cons.2 ⟨hP _ _ hab, ih⟩

theorem Forall₂.getElem? (h : Forall₂ R l l') (i : Nat) : Option.Rel R l[i]? l'[i]? := by
  induction h generalizing i with
  | nil => exact .none
  | cons hab _ ih =>
    cases i with
    | zero => exact .some hab
    | succ i => exact ih i

theorem Forall₂.set {a : α} {b : β} (h : Forall₂ R l l') (hab : R a b) (k : Nat) :
    Forall₂ R (l.set k a) (l'.set k b) := by
  induction h generalizing k with
  | nil => exact .nil
  | cons hxy ht ih =>
    cases k with
    | zero => exact .cons hab ht
    | succ k => exact .cons hxy (ih k)

theorem Forall₂.mapIdx {γ δ : Type} {S : γ → δ → Prop} {f : Nat → α → γ} {f' : Nat → β → δ}
    (h : Forall₂ R l l') (hf : ∀ k a b, R a b → S (f k a) (f' k b)) :
    Forall₂ S (l.mapIdx f) (l'.mapIdx f') := by
  induction h generalizing f f' with
  | nil => exact .nil
  | cons hab _ ih =>
    rw [List.mapIdx_cons, List.mapIdx_cons]
    exact .cons (hf 0 _ _ hab) (ih fun k => hf (k + 1))

theorem Forall₂.zip {γ δ : Type} {S : γ → δ → Prop} {k : List γ} {k' : List δ}
    (h : Forall₂ R l l') (hk : Forall₂ S k k') :
    Forall₂ (fun p q => R p.1 q.1 ∧ S p.2 q.2) (l.zip k) (l'.zip k') := by
  induction h generalizing k k' with
  | nil => exact .nil
  | cons hab _ ih =>
    cases hk with
    | nil => exact .nil
    | cons hcd hk => exact .cons ⟨hab, hcd⟩ (ih hk)

/-- Lists are related item by item if they are at every place, which may be in neither. -/
theorem forall₂_iff_rel_getElem? :
    Forall₂ R l l' ↔ ∀ i : Nat, Option.Rel R l[i]? l'[i]? := by
  refine ⟨Forall₂.getElem?, fun h => ?_⟩
  induction l generalizing l' with
  | nil =>
    cases l' with
    | nil => exact .nil
    | cons b l' => cases h 0
  | cons a l ih =>
    cases l' with
    | nil => cases h 0
    | cons b l' =>
      refine .cons ?_ (ih fun i => h (i + 1))
      cases h 0 with
      | some hab => exact hab

/-- A list that is related item by item to what a map makes of others is related to others
that the map makes the same of. -/
theorem Forall₂.exists_map {γ : Type} {S : α → γ → Prop} {f : γ → β}
    (h : Forall₂ (fun a b => ∃ c, S a c ∧ f c = b) l l') :
    ∃ l'', Forall₂ S l l'' ∧ l''.map f = l' := by
  induction h with
  | nil => exact ⟨[], .nil, rfl⟩
  | cons hab _ ih =>
    obtain ⟨c, hc, rfl⟩ := hab
    obtain ⟨cs, hcs, rfl⟩ := ih
    exact ⟨c :: cs, .cons hc hcs, rfl⟩

/-- Two lists are one if each is related item by item to a third, whose items are related to
one thing. -/
theorem Forall₂.eq_of_unique {γ : Type} {S : α → γ → Prop} {T : α → γ → Prop} {l₁ l₂ : List γ}
    (h₁ : Forall₂ S l l₁) (h₂ : Forall₂ T l l₂) (hST : ∀ a b c, S a b → T a c → b = c) :
    l₁ = l₂ := by
  induction h₁ generalizing l₂ with
  | nil =>
    cases h₂
    rfl
  | cons hab _ ih =>
    cases h₂ with
    | cons hac h => rw [hST _ _ _ hab hac, ih h]

/-- A traversal whose steps all go through, with outcomes that are related to the items of
another list. -/
theorem Forall₂.mapM {m : Type → Type} [Monad m] [LawfulMonad m] {γ : Type} {S : γ → β → Prop}
    {f : α → m γ} (h : Forall₂ (fun a b => ∃ c, f a = pure c ∧ S c b) l l') :
    ∃ cs, l.mapM f = pure cs ∧ Forall₂ S cs l' := by
  induction h with
  | nil => exact ⟨[], rfl, .nil⟩
  | cons hab _ ih =>
    obtain ⟨c, hc, hS⟩ := hab
    obtain ⟨cs, hcs, hrest⟩ := ih
    refine ⟨c :: cs, ?_, .cons hS hrest⟩
    rw [List.mapM_cons, hc, hcs]
    simp

/-- Traversals with the same steps. -/
theorem Forall₂.mapM_eq {m : Type → Type} [Monad m] [LawfulMonad m] {γ : Type} {f : α → m γ}
    {f' : β → m γ} (h : Forall₂ (fun a b => f a = f' b) l l') : l.mapM f = l'.mapM f' := by
  induction h with
  | nil => rfl
  | cons hab _ ih => rw [List.mapM_cons, List.mapM_cons, hab, ih]

/-- A traversal whose steps all go through, with what a map makes of the items of another
list. -/
theorem Forall₂.mapM_map {m : Type → Type} [Monad m] [LawfulMonad m] {γ : Type} {F : β → γ}
    {f : α → m γ} (h : Forall₂ (fun a b => f a = pure (F b)) l l') :
    l.mapM f = pure (l'.map F) := by
  rw [h.mapM_eq, List.mapM_pure]

/-- A test of all items, each of which goes through. -/
theorem Forall₂.allM {m : Type → Type} [Monad m] [LawfulMonad m] {F : β → Bool} {f : α → m Bool}
    (h : Forall₂ (fun a b => f a = pure (F b)) l l') : l.allM f = pure (l'.all F) := by
  induction h with
  | nil => rfl
  | @cons a b l l' hab _ ih =>
    rw [List.allM, hab, pure_bind, all_cons]
    cases F b with
    | true => simpa using ih
    | false => simp

/-- A traversal that checks every item of another list. -/
theorem Forall₂.mapM_passes {ε : Type} {e : ε} {P : β → Prop} {f : α → Except ε β}
    (h : Forall₂ (fun a b => (f a).Passes e P b) l l') :
    (l.mapM f).Passes e (fun bs => ∀ b ∈ bs, P b) l' := by
  induction h with
  | nil => exact .inl ⟨forall_mem_nil P, rfl⟩
  | cons hab _ ih =>
    rw [List.mapM_cons]
    rcases hab with ⟨hP, ha⟩ | ⟨hP, ha⟩
    · rw [ha]
      rcases ih with ⟨hPs, hl⟩ | ⟨hPs, hl⟩
      · exact .inl ⟨forall_mem_cons.2 ⟨hP, hPs⟩, by rw [hl]; rfl⟩
      · exact .inr ⟨fun h => hPs (forall_mem_cons.1 h).2, by rw [hl]; rfl⟩
    · exact .inr ⟨fun h => hP (forall_mem_cons.1 h).1, by rw [ha]; rfl⟩

end List

namespace Option.Rel

variable {α β γ δ : Type} {R : α → β → Prop} {S : γ → δ → Prop} {a : Option α} {b : Option β}

theorem map {f : α → γ} {g : β → δ} (h : Rel R a b) (hfg : ∀ x y, R x y → S (f x) (g y)) :
    Rel S (a.map f) (b.map g) := by
  cases h with
  | none => exact .none
  | some hab => exact .some (hfg _ _ hab)

theorem bind {f : α → Option γ} {g : β → Option δ} (h : Rel R a b)
    (hfg : ∀ x y, R x y → Rel S (f x) (g y)) : Rel S (a.bind f) (b.bind g) := by
  cases h with
  | none => exact .none
  | some hab => exact hfg _ _ hab

theorem ite {a' : Option α} {b' : Option β} {c d : Prop} [Decidable c] [Decidable d]
    (hcd : c ↔ d) (h : Rel R a b) (h' : Rel R a' b') :
    Rel R (if c then a else a') (if d then b else b') := by
  by_cases hc : c
  · rwa [if_pos hc, if_pos (hcd.1 hc)]
  · rwa [if_neg hc, if_neg (mt hcd.2 hc)]

theorem toList (h : Rel R a b) : List.Forall₂ R a.toList b.toList := by
  cases h with
  | none => exact .nil
  | some hab => exact .cons hab .nil

theorem isSome_eq (h : Rel R a b) : a.isSome = b.isSome := by
  cases h <;> rfl

end Option.Rel

namespace JsonPaths.Assoc

variable {κ ι α β : Type} {K : κ → ι → Prop} {R : α → β → Prop} {m : List (κ × α)}
  {m' : List (ι × β)}

/-- Two pairs have keys that correspond to each other, and related values. -/
def Paired (K : κ → ι → Prop) (R : α → β → Prop) (p : κ × α) (q : ι × β) : Prop :=
  K p.1 q.1 ∧ R p.2 q.2

variable [BEq κ] [BEq ι] (hK : ∀ {k j k' j'}, K k j → K k' j' → (k == k') = (j == j'))

include hK

/-- Maps that are related pair by pair have related values under corresponding keys. -/
theorem lookup_paired (h : List.Forall₂ (Paired K R) m m') {k : κ} {j : ι} (hk : K k j) :
    Option.Rel R (m.lookup k) (m'.lookup j) := by
  induction h with
  | nil => exact .none
  | @cons p q m m' hpq _ ih =>
    rw [List.lookup_cons, List.lookup_cons, hK hk hpq.1]
    cases j == q.1 with
    | true => exact .some hpq.2
    | false => exact ih

theorem all_isSome_lookup_paired {γ δ : Type} {S : γ → δ → Prop} {n : List (κ × γ)}
    {n' : List (ι × δ)} (h : List.Forall₂ (Paired K R) m m')
    (hn : List.Forall₂ (Paired K S) n n') :
    m.all (fun p => (n.lookup p.1).isSome) = m'.all (fun p => (n'.lookup p.1).isSome) := by
  induction h with
  | nil => rfl
  | cons hpq _ ih => rw [List.all_cons, List.all_cons, ih, (lookup_paired hK hn hpq.1).isSome_eq]

theorem sameKeys_paired {γ δ : Type} {S : γ → δ → Prop} {n : List (κ × γ)} {n' : List (ι × δ)}
    (h : List.Forall₂ (Paired K R) m m') (hn : List.Forall₂ (Paired K S) n n') :
    sameKeys m n = sameKeys m' n' := by
  rw [sameKeys, sameKeys, all_isSome_lookup_paired hK h hn, all_isSome_lookup_paired hK hn h]

theorem put_paired {k : κ} {j : ι} {a : α} {b : β} (hk : K k j) (ha : R a b)
    (h : List.Forall₂ (Paired K R) m m') :
    List.Forall₂ (Paired K R) (put k a m) (put j b m') := by
  induction h with
  | nil => exact .cons ⟨hk, ha⟩ .nil
  | @cons p q m m' hpq ht ih =>
    rw [put, put, hK hpq.1 hk]
    split
    · exact .cons ⟨hpq.1, ha⟩ ht
    · exact .cons hpq ih

/-- Maps that are read from related pairs are related. -/
theorem ofList_paired (h : List.Forall₂ (Paired K R) m m') :
    List.Forall₂ (Paired K R) (ofList m) (ofList m') :=
  List.rel_foldl (fun _ _ hm _ _ hp => put_paired hK hp.1 hp.2 hm) .nil h

end JsonPaths.Assoc
