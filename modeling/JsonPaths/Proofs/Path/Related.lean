/-
JsonPaths/Proofs/Path/Related.lean

Hits and places that are related.

Two hits are related if they were read from related objects under one name and have
related values, or if they gather hits that are related in turn; two places, if they have
related values or such hits.  What is done to hits without a look at their values keeps
them related.
-/
import JsonPaths.Path.Assign
import JsonPaths.Proofs.Related

namespace JsonPaths

variable {μ ν α β : Type} {R : μ → ν → Prop} {S : α → β → Prop}

/-- The two hits were read from related objects under one name, with related values, or
gather related hits in turn. -/
inductive Hit.Related (R : μ → ν → Prop) (S : α → β → Prop) : Hit μ α → Hit ν β → Prop
  | member {m : μ} {m' : ν} {name : String} {v : α} {w : β} : R m m' → S v w →
      Related R S (.member m name v) (.member m' name w)
  | gathered {hs : List (Hit μ α)} {hs' : List (Hit ν β)} : hs.length = hs'.length →
      (∀ (i : Nat) h h', hs[i]? = some h → hs'[i]? = some h' → Related R S h h') →
      Related R S (.gathered hs) (.gathered hs')

/-- The two places have related values, or related hits in turn. -/
inductive Place.Related (R : μ → ν → Prop) (S : α → β → Prop) : Place μ α → Place ν β → Prop
  | value {v : α} {w : β} : S v w → Related R S (.value v) (.value w)
  | hits {hs : List (Hit μ α)} {hs' : List (Hit ν β)} :
      List.Forall₂ (Hit.Related R S) hs hs' → Related R S (.hits hs) (.hits hs')

namespace Hit

theorem related_gathered_iff {hs : List (Hit μ α)} {hs' : List (Hit ν β)} :
    (gathered hs).Related R S (.gathered hs') ↔ List.Forall₂ (Hit.Related R S) hs hs' := by
  rw [List.forall₂_iff_getElem?]
  constructor
  · intro h
    cases h with
    | gathered hl h => exact ⟨hl, h⟩
  · exact fun ⟨hl, h⟩ => .gathered hl h

theorem related_gather {hs : List (Hit μ α)} {hs' : List (Hit ν β)}
    (h : List.Forall₂ (Hit.Related R S) hs hs') :
    Option.Rel (Hit.Related R S) (gather hs) (gather hs') := by
  cases h with
  | nil => exact .none
  | cons hh ht => exact .some (related_gathered_iff.2 (.cons hh ht))

theorem related_place {h : Hit μ α} {h' : Hit ν β} (hh : h.Related R S h') :
    h.place.Related R S h'.place := by
  cases hh with
  | member _ hv => exact .value hv
  | gathered hl hh => exact .hits (related_gathered_iff.1 (.gathered hl hh))

theorem source_eq {h : Hit μ α} {h' : Hit μ β} (hh : h.Related Eq S h') :
    h.source = h'.source := by
  cases hh with
  | member hm _ => rw [source, source, hm]
  | gathered => rfl

end Hit

end JsonPaths
