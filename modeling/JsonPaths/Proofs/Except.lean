/-
JsonPaths/Proofs/Except.lean

What an outcome that has been mapped, continued or freed of its error says about the outcome.
-/

namespace Except

variable {ε α β : Type} {x : Except ε α} {f : α → β}

theorem map_eq_ok {b : β} : x.map f = .ok b ↔ ∃ a, x = .ok a ∧ b = f a := by
  cases x with
  | error e => simp [Except.map]
  | ok a => simp [Except.map, eq_comm]

theorem map_eq_error {e : ε} : x.map f = .error e ↔ x = .error e := by
  cases x with
  | error e' => simp [Except.map]
  | ok a => simp [Except.map]

theorem mapError_eq_ok {ε' : Type} {f : ε → ε'} {a : α} : x.mapError f = .ok a ↔ x = .ok a := by
  cases x with
  | error e => constructor <;> intro h <;> cases h
  | ok b =>
    show Except.ok b = .ok a ↔ _
    simp only [Except.ok.injEq]

theorem bind_eq_ok {f : α → Except ε β} {b : β} :
    (x >>= f) = .ok b ↔ ∃ a, x = .ok a ∧ f a = .ok b := by
  cases x <;> simp [bind, Except.bind]

theorem toOption_eq_some {a : α} : x.toOption = some a ↔ x = .ok a := by
  cases x with
  | error e => simp [Except.toOption]
  | ok a' => simp [Except.toOption]

/-! ### Outcomes of a check -/

/-- The outcome of a check of `a`: `a` itself if it has a property, and an error if not. -/
def Passes (e : ε) (P : α → Prop) (r : Except ε α) (a : α) : Prop :=
  P a ∧ r = .ok a ∨ ¬P a ∧ r = .error e

theorem Passes.map {e : ε} {P : α → Prop} {Q : β → Prop} {r : Except ε α} {a : α}
    (h : r.Passes e P a) (hf : ∀ a, Q (f a) ↔ P a) : (r.map f).Passes e Q (f a) := by
  rcases h with ⟨hP, rfl⟩ | ⟨hP, rfl⟩
  · exact .inl ⟨(hf a).2 hP, rfl⟩
  · exact .inr ⟨mt (hf a).1 hP, rfl⟩

end Except
