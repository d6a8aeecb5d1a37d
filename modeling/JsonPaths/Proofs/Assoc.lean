/-
JsonPaths/Proofs/Assoc.lean

Insertion-ordered maps: look-up, distinct keys, and storing one value under
several keys.

`putEach ks a m` stores `a` under all keys of `ks`, one after the other.  If all
of them are one key, it is a single `put` (`putEach_eq_put`).
-/
import JsonPaths.Assoc
import Mathlib.Data.List.Dedup
import Mathlib.Data.List.Nodup

namespace JsonPaths.Assoc

variable {κ α β : Type} [BEq κ]

/-! ### Look-up -/

section LookUp

variable [LawfulBEq κ]

theorem mem_of_lookup {k : κ} {a : α} {m : List (κ × α)} (h : m.lookup k = some a) :
    (k, a) ∈ m := by
  obtain ⟨l₁, l₂, rfl, -⟩ := List.lookup_eq_some_iff.1 h
  simp

theorem lookup_of_mem {m : List (κ × α)} {k : κ} {a : α} (h : (keys m).Nodup)
    (hm : (k, a) ∈ m) : m.lookup k = some a := by
  induction m with
  | nil => cases hm
  | cons p m ih =>
    obtain ⟨hp, hn⟩ := List.nodup_cons.1 h
    rcases List.mem_cons.1 hm with rfl | hm
    · simp
    · have hk : (k == p.1) = false :=
        beq_eq_false_iff_ne.2 fun e => hp (e ▸ List.mem_map_of_mem hm)
      rw [List.lookup_cons, hk]
      exact ih hn hm

theorem isSome_lookup_iff {k : κ} {m : List (κ × α)} :
    (m.lookup k).isSome = true ↔ k ∈ keys m := by
  constructor
  · intro h
    obtain ⟨a, ha⟩ := Option.isSome_iff_exists.1 h
    exact List.mem_map_of_mem (mem_of_lookup ha)
  · intro h
    obtain ⟨p, hp, rfl⟩ := List.mem_map.1 h
    rw [List.lookup_isSome_iff]
    exact ⟨p, hp, beq_self_eq_true _⟩

/-- Values may be changed with a look at their keys. -/
theorem lookup_map_key (g : κ → α → β) (k : κ) (m : List (κ × α)) :
    (m.map fun p => (p.1, g p.1 p.2)).lookup k = (m.lookup k).map (g k) := by
  induction m with
  | nil => rfl
  | cons p m ih =>
    obtain ⟨k', a⟩ := p
    rw [List.map_cons, List.lookup_cons, List.lookup_cons]
    cases h : k == k' with
    | true => rw [eq_of_beq h, Option.map_some]
    | false => exact ih

theorem lookup_map (g : α → β) (k : κ) (m : List (κ × α)) :
    (m.map fun p => (p.1, g p.2)).lookup k = (m.lookup k).map g :=
  lookup_map_key (fun _ => g) k m

end LookUp

/-! ### Storing once -/

theorem map_put (g : α → β) (k : κ) (a : α) (m : List (κ × α)) :
    (put k a m).map (fun p => (p.1, g p.2)) = put k (g a) (m.map fun p => (p.1, g p.2)) := by
  induction m with
  | nil => rfl
  | cons p m ih =>
    rw [put, List.map_cons, put]
    split
    · rfl
    · rw [List.map_cons, ih]

/-- Of two values that are stored under one key the second stays. -/
theorem put_put [LawfulBEq κ] (k : κ) (a b : α) (m : List (κ × α)) :
    put k b (put k a m) = put k b m := by
  induction m with
  | nil => simp [put]
  | cons p m ih => by_cases h : p.1 = k <;> simp [put, h, ih]

/-- Storing passes over pairs with other keys. -/
theorem put_append [LawfulBEq κ] {k : κ} {l : List (κ × α)} (h : k ∉ keys l) (a : α)
    (r : List (κ × α)) : put k a (l ++ r) = l ++ put k a r := by
  induction l with
  | nil => rfl
  | cons p l ih =>
    rw [keys, List.map_cons, List.mem_cons, not_or] at h
    have hp : ¬p.1 = k := fun e => h.1 e.symm
    simp [put, hp, ih h.2]

theorem put_eq_self [LawfulBEq κ] {k : κ} {a : α} {m : List (κ × α)}
    (h : m.lookup k = some a) : put k a m = m := by
  induction m with
  | nil => cases h
  | cons p m ih =>
    obtain ⟨k', b⟩ := p
    rw [put]
    rw [List.lookup_cons] at h
    by_cases hk : k' = k
    · subst hk
      simp_all
    · have hk' : (k == k') = false := beq_eq_false_iff_ne.2 (Ne.symm hk)
      rw [hk'] at h
      rw [if_neg (by simpa using hk), ih h]

/-- What a map has under a key does not matter when that key is stored. -/
theorem put_map_congr [LawfulBEq κ] {f g : κ → α → β} {k : κ} {m : List (κ × α)} (b : β)
    (hn : (keys m).Nodup) (h : ∀ p ∈ m, p.1 ≠ k → f p.1 p.2 = g p.1 p.2) :
    put k b (m.map fun p => (p.1, f p.1 p.2)) = put k b (m.map fun p => (p.1, g p.1 p.2)) := by
  induction m with
  | nil => rfl
  | cons p m ih =>
    obtain ⟨hp, hn⟩ := List.nodup_cons.1 hn
    have htail : ∀ q ∈ m, q.1 ≠ k → f q.1 q.2 = g q.1 q.2 := fun q hq =>
      h q (List.mem_cons_of_mem _ hq)
    rw [List.map_cons, List.map_cons, put, put]
    by_cases hk : p.1 = k
    · have hm : m.map (fun p => (p.1, f p.1 p.2)) = m.map fun p => (p.1, g p.1 p.2) := by
        refine List.map_congr_left fun q hq => ?_
        rw [htail q hq fun e => hp (hk ▸ e ▸ List.mem_map_of_mem hq)]
      rw [hm]
      simp [hk]
    · rw [if_neg (by simpa using hk), if_neg (by simpa using hk), ih hn htail,
        h p List.mem_cons_self hk]

theorem mem_put {k : κ} {a : α} {l : List (κ × α)} {p : κ × α} (h : p ∈ put k a l) :
    p ∈ l ∨ p.2 = a := by
  induction l with
  | nil => simp_all [put]
  | cons q r ih =>
    rw [put] at h
    split at h
    · rcases List.mem_cons.1 h with rfl | h
      · exact .inr rfl
      · exact .inl (List.mem_cons_of_mem _ h)
    · rcases List.mem_cons.1 h with rfl | h
      · exact .inl List.mem_cons_self
      · exact (ih h).imp (List.mem_cons_of_mem _) id

theorem nodup_keys_put [LawfulBEq κ] {m : List (κ × α)} (h : (keys m).Nodup) (k : κ)
    (a : α) : (keys (put k a m)).Nodup := by
  by_cases hk : k ∈ keys m
  · rwa [keys_put_of_mem hk]
  · rw [put_of_notMem hk, keys, List.map_append, List.nodup_append]
    refine ⟨h, by simp, ?_⟩
    rintro x hx y hy rfl
    obtain rfl : x = k := by simpa using hy
    exact hk hx

theorem mem_keys_put [LawfulBEq κ] {k j : κ} {a : α} {m : List (κ × α)} :
    j ∈ keys (put k a m) ↔ j ∈ keys m ∨ j = k := by
  by_cases hk : k ∈ keys m
  · rw [keys_put_of_mem hk]
    exact ⟨.inl, fun h => h.elim id fun e => e ▸ hk⟩
  · rw [put_of_notMem hk, keys, List.map_append, List.mem_append]
    simp [keys]

/-! ### Entering pairs -/

/-- Enters pairs into a map, from left to right. -/
def enter (l m : List (κ × α)) : List (κ × α) := l.foldl (fun m p => put p.1 p.2 m) m

theorem enter_cons (p : κ × α) (l m : List (κ × α)) :
    enter (p :: l) m = enter l (put p.1 p.2 m) := rfl

theorem enter_append (l l' m : List (κ × α)) : enter (l ++ l') m = enter l' (enter l m) :=
  List.foldl_append

theorem nodup_keys_enter [LawfulBEq κ] {l m : List (κ × α)} (h : (keys m).Nodup) :
    (keys (enter l m)).Nodup := by
  induction l generalizing m with
  | nil => exact h
  | cons p l ih => exact ih (nodup_keys_put h p.1 p.2)

theorem mem_enter {l m : List (κ × α)} {p : κ × α} (h : p ∈ enter l m) :
    p ∈ m ∨ ∃ q ∈ l, p.2 = q.2 := by
  induction l generalizing m with
  | nil => exact .inl h
  | cons q l ih =>
    rcases ih h with hp | ⟨q', hq', e⟩
    · rcases mem_put hp with hp | e
      · exact .inl hp
      · exact .inr ⟨q, List.mem_cons_self, e⟩
    · exact .inr ⟨q', List.mem_cons_of_mem _ hq', e⟩

/-- Pairs with new keys, all different, are put at the end. -/
theorem enter_of_nodup [LawfulBEq κ] {l m : List (κ × α)} (h : (keys (m ++ l)).Nodup) :
    enter l m = m ++ l := by
  induction l generalizing m with
  | nil => exact (List.append_nil m).symm
  | cons p l ih =>
    have hp : p.1 ∉ keys m := by
      intro hm
      rw [keys, List.map_append, List.nodup_append] at h
      exact h.2.2 _ hm _ List.mem_cons_self rfl
    have hl : (keys (m ++ [p] ++ l)).Nodup := by rwa [List.append_assoc]
    rw [enter_cons, put_of_notMem hp, ih hl, List.append_assoc]
    rfl

/-- A map read from pairs has distinct keys, and its values come from the pairs. -/
theorem nodup_keys_ofList [LawfulBEq κ] (l : List (κ × α)) :
    (keys (ofList l)).Nodup ∧ ∀ p ∈ ofList l, ∃ q ∈ l, p.2 = q.2 := by
  constructor
  · exact nodup_keys_enter List.nodup_nil
  · intro p hp
    exact (mem_enter hp).resolve_left List.not_mem_nil

/-- Pairs with distinct keys are a map as they are. -/
theorem ofList_eq_self [LawfulBEq κ] {l : List (κ × α)} (h : (keys l).Nodup) :
    ofList l = l :=
  enter_of_nodup h

theorem mem_keys_enter [LawfulBEq κ] {l m : List (κ × α)} {k : κ} :
    k ∈ keys (enter l m) ↔ k ∈ keys m ∨ k ∈ keys l := by
  induction l generalizing m with
  | nil => simp [enter, keys]
  | cons p l ih =>
    rw [enter_cons, ih, mem_keys_put]
    simp only [keys, List.map_cons, List.mem_cons]
    tauto

/-- The last pair of a key gives its value; a key that is not entered keeps the one that
it had. -/
theorem lookup_enter [LawfulBEq κ] (l m : List (κ × α)) (k : κ) :
    (enter l m).lookup k = (l.reverse.lookup k).or (m.lookup k) := by
  induction l generalizing m with
  | nil => rfl
  | cons p l ih =>
    obtain ⟨j, b⟩ := p
    rw [enter_cons, ih, List.reverse_cons, List.lookup_append, Option.or_assoc]
    refine congrArg (Option.or _) ?_
    by_cases h : k = j
    · rw [h, lookup_put_self]
      simp
    · have hk : (k == j) = false := beq_eq_false_iff_ne.2 h
      rw [lookup_put_of_ne h]
      simp [List.lookup_cons, hk]

/-- What is read under a key is its last pair. -/
theorem lookup_ofList_eq_some [LawfulBEq κ] {l : List (κ × α)} {k : κ} {a : α} :
    (ofList l).lookup k = some a ↔ ∃ l₁ l₂, l = l₁ ++ (k, a) :: l₂ ∧ k ∉ keys l₂ := by
  have hlast : (ofList l).lookup k = l.reverse.lookup k := by
    show (enter l []).lookup k = _
    rw [lookup_enter, List.lookup_nil, Option.or_none]
  rw [hlast, List.lookup_eq_some_iff]
  constructor
  · rintro ⟨r, s, e, hr⟩
    refine ⟨s.reverse, r.reverse, ?_, fun hk => ?_⟩
    · rw [← List.reverse_reverse l, e]
      simp
    · obtain ⟨p, hp, rfl⟩ := List.mem_map.1 hk
      simpa using hr p (List.mem_reverse.1 hp)
  · rintro ⟨l₁, l₂, rfl, hk⟩
    refine ⟨l₂.reverse, l₁.reverse, by simp, fun p hp => ?_⟩
    have hne : k ≠ p.1 := fun e => hk (e ▸ List.mem_map_of_mem (List.mem_reverse.1 hp))
    simpa using hne

/-- Keys that are entered follow the keys that a map has, each where it is first entered. -/
theorem keys_enter [LawfulBEq κ] (l m : List (κ × α)) :
    keys (enter l m) = keys m ++ ((keys l).filter fun k => !(keys m).contains k).eraseDups := by
  induction l generalizing m with
  | nil => simp [enter, keys]
  | cons p l ih =>
    have hkeys : keys (p :: l) = p.1 :: keys l := rfl
    rw [enter_cons, ih, hkeys]
    by_cases hp : p.1 ∈ keys m
    · rw [keys_put_of_mem hp, List.filter_cons_of_neg (by simpa using hp)]
    · have hput : keys (put p.1 p.2 m) = keys m ++ [p.1] := by
        rw [put_of_notMem hp, keys, List.map_append]
        rfl
      rw [hput, List.filter_cons_of_pos (by simpa using hp), List.eraseDups_cons,
        List.filter_filter, List.append_assoc]
      refine congrArg (keys m ++ p.1 :: List.eraseDups ·) (List.filter_congr fun k _ => ?_)
      rw [List.contains_append, Bool.not_or, Bool.and_comm]
      simp

/-- The keys of a map that is read from pairs stand in the order in which they first
occur. -/
theorem keys_ofList [LawfulBEq κ] (l : List (κ × α)) :
    keys (ofList l) = (keys l).eraseDups := by
  show keys (enter l []) = _
  rw [keys_enter]
  simp [keys]

/-- There is one pair for each key. -/
theorem length_ofList [DecidableEq κ] [LawfulBEq κ] (l : List (κ × α)) :
    (ofList l).length = (keys l).dedup.length := by
  have hkeys : (ofList l).length = (keys (ofList l)).length := (List.length_map _).symm
  rw [hkeys]
  refine List.Perm.length_eq ((List.perm_ext_iff_of_nodup (nodup_keys_ofList l).1
    (List.nodup_dedup _)).2 fun k => ?_)
  rw [List.mem_dedup]
  show k ∈ keys (enter l []) ↔ k ∈ keys l
  rw [mem_keys_enter]
  simp [keys]

/-! ### Storing under several keys -/

/-- Stores `a` under every key in the list, from left to right. -/
def putEach (ks : List κ) (a : α) (m : List (κ × α)) : List (κ × α) :=
  ks.foldl (fun m k => put k a m) m

@[simp] theorem putEach_nil (a : α) (m : List (κ × α)) : putEach [] a m = m := rfl

theorem putEach_cons (k : κ) (ks : List κ) (a : α) (m : List (κ × α)) :
    putEach (k :: ks) a m = putEach ks a (put k a m) := rfl

theorem map_putEach (g : α → β) (ks : List κ) (a : α) (m : List (κ × α)) :
    (putEach ks a m).map (fun p => (p.1, g p.2))
      = putEach ks (g a) (m.map fun p => (p.1, g p.2)) := by
  induction ks generalizing m with
  | nil => rfl
  | cons k ks ih => rw [putEach_cons, putEach_cons, ih, map_put]

theorem mem_putEach {ks : List κ} {a : α} {m : List (κ × α)} {p : κ × α}
    (h : p ∈ putEach ks a m) : p ∈ m ∨ p.2 = a ∧ ks ≠ [] := by
  induction ks generalizing m with
  | nil => exact .inl h
  | cons k ks ih =>
    rcases ih h with h | ⟨e, -⟩
    · rcases mem_put h with h | e
      · exact .inl h
      · exact .inr ⟨e, List.cons_ne_nil _ _⟩
    · exact .inr ⟨e, List.cons_ne_nil _ _⟩

variable [LawfulBEq κ]

theorem lookup_putEach [DecidableEq κ] {ks : List κ} {a : α} {m : List (κ × α)} {k : κ} :
    (putEach ks a m).lookup k = if k ∈ ks then some a else m.lookup k := by
  induction ks generalizing m with
  | nil => simp
  | cons j ks ih =>
    rw [putEach_cons, ih]
    by_cases h : k = j
    · subst h
      simp [lookup_put_self]
    · simp [lookup_put_of_ne h, h]

/-- What is stored already is stored in vain. -/
theorem putEach_eq_self {ks : List κ} {a : α} {m : List (κ × α)}
    (h : ∀ k ∈ ks, m.lookup k = some a) : putEach ks a m = m := by
  induction ks with
  | nil => rfl
  | cons k ks ih =>
    obtain ⟨hk, hks⟩ := List.forall_mem_cons.1 h
    rw [putEach_cons, put_eq_self hk, ih hks]

theorem nodup_keys_putEach {m : List (κ × α)} (h : (keys m).Nodup) (ks : List κ) (a : α) :
    (keys (putEach ks a m)).Nodup := by
  induction ks generalizing m with
  | nil => exact h
  | cons k ks ih => exact ih (nodup_keys_put h k a)

/-- One key is stored once, however often it is listed. -/
theorem putEach_eq_put {ks : List κ} {k : κ} {a : α} {m : List (κ × α)} (h : k ∈ ks)
    (hk : ∀ j ∈ ks, j = k) : putEach ks a m = put k a m := by
  induction ks generalizing m with
  | nil => cases h
  | cons j ks ih =>
    obtain rfl := hk j List.mem_cons_self
    have hks : ∀ i ∈ ks, i = j := fun i hi => hk i (List.mem_cons_of_mem _ hi)
    rw [putEach_cons]
    cases ks with
    | nil => rfl
    | cons i is =>
      obtain rfl := hks i List.mem_cons_self
      rw [ih List.mem_cons_self hks, put_put]

end JsonPaths.Assoc
