/-
JsonPaths/Assoc.lean

Insertion-ordered maps: lists of pairs with one pair per key.

Storing under a key that is present replaces its value and keeps its place and
the key as it was first given; a new key goes to the end.  The members of a JSON
object, the leaf index of a document, the entries of a directory and the named
documents of a session are such maps.  The look-up is `List.lookup`; the lemmas say what
`put` does to it and to the keys.
-/

namespace JsonPaths.Assoc

variable {κ α : Type} [BEq κ]

/-! ### Storing under a key -/

/-- Stores `a` under `k`, in the place of the first key equal to `k`, or at the
end. -/
def put (k : κ) (a : α) : List (κ × α) → List (κ × α)
  | [] => [(k, a)]
  | p :: r => if p.1 == k then (p.1, a) :: r else p :: put k a r

/-- The map that a list of pairs describes when it is read from left to right:
a repeated key keeps its first place and has its last value. -/
def ofList (l : List (κ × α)) : List (κ × α) :=
  l.foldl (fun m p => put p.1 p.2 m) []

/-- The keys, in order. -/
def keys (m : List (κ × α)) : List κ := m.map Prod.fst

/-- Whether two maps have the same keys, in whatever order. -/
def sameKeys {β : Type} (a : List (κ × α)) (b : List (κ × β)) : Bool :=
  a.all (fun p => (b.lookup p.1).isSome) && b.all (fun p => (a.lookup p.1).isSome)

/-! ### Laws -/

variable [LawfulBEq κ]

theorem lookup_put_self (k : κ) (a : α) (m : List (κ × α)) :
    (put k a m).lookup k = some a := by
  induction m with
  | nil => simp [put]
  | cons p r ih =>
    obtain ⟨k', b⟩ := p
    by_cases h : k' = k
    · simp [put, h]
    · have : (k == k') = false := by simpa using fun e => h e.symm
      simp [put, h, List.lookup_cons, this, ih]

theorem lookup_put_of_ne {k k' : κ} (h : k' ≠ k) (a : α) (m : List (κ × α)) :
    (put k a m).lookup k' = m.lookup k' := by
  have hk : (k' == k) = false := by simpa using h
  induction m with
  | nil => simp [put, List.lookup_cons, hk]
  | cons p r ih =>
    obtain ⟨k₀, b⟩ := p
    by_cases hp : k₀ = k
    · simp [put, hp, List.lookup_cons, hk]
    · simp [put, hp, List.lookup_cons, ih]

theorem keys_put_of_mem {k : κ} {m : List (κ × α)} (h : k ∈ keys m) (a : α) :
    keys (put k a m) = keys m := by
  induction m with
  | nil => simp [keys] at h
  | cons p r ih =>
    by_cases hp : p.1 = k
    · simp [put, keys, hp]
    · have hr : k ∈ keys r := by
        rcases List.mem_cons.1 h with e | e
        · exact absurd e.symm hp
        · exact e
      simpa [put, keys, hp] using ih hr

theorem put_of_notMem {k : κ} {m : List (κ × α)} (h : k ∉ keys m) (a : α) :
    put k a m = m ++ [(k, a)] := by
  induction m with
  | nil => rfl
  | cons p r ih =>
    have hp : p.1 ≠ k := fun e => h (by simp [keys, e])
    have hr : k ∉ keys r := fun e => h (List.mem_cons_of_mem _ e)
    simp [put, hp, ih hr]

end JsonPaths.Assoc
