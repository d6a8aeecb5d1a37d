/-
JsonPaths/Path/Assign.lean

Assigning at a path.

The last step of a path addresses slots: members of objects or items of arrays.
A last field step on an object addresses its member of that name, present or
not; on an array or a gathered list it addresses that member in every object
that has it, reached through arrays only.  A last index step addresses the item
of an array, or the member that an indexed hit was read from.  All slots are
found before anything is written, and a write reaches a slot wherever its
container occurs in the tree.
-/
import JsonPaths.Path.Reach

namespace JsonPaths

variable {μ ν : Type}

/-! ### Slots -/

/-- A place to write to: a step of the container with a given mark. -/
structure Slot (μ : Type) where
  owner : μ
  step : Step
  deriving DecidableEq, Repr

mutual

/-- The members of a given name in the objects that have one, reached through
arrays only. -/
def Value.slots (name : String) : Value μ → List (Slot μ)
  | .object m members => if (members.lookup name).isSome then [⟨m, .field name⟩] else []
  | .array _ items => Value.slotsOfItems name items
  | _ => []

/-- The slots in the items of an array, in order. -/
def Value.slotsOfItems (name : String) : List (Value μ) → List (Slot μ)
  | [] => []
  | v :: vs => v.slots name ++ Value.slotsOfItems name vs

end

mutual

/-- The slots in a hit. -/
def Hit.slots (name : String) : Hit μ (Value μ) → List (Slot μ)
  | .member _ _ v => v.slots name
  | .gathered hs => Hit.slotsOfAll name hs

/-- The slots in a list of hits, in order. -/
def Hit.slotsOfAll (name : String) : List (Hit μ (Value μ)) → List (Slot μ)
  | [] => []
  | h :: hs => h.slots name ++ Hit.slotsOfAll name hs

end

/-- The slot that a hit was read from, if it is a member. -/
def Hit.source : Hit μ ν → Option (Slot μ)
  | .member m name _ => some ⟨m, .field name⟩
  | .gathered _ => none

namespace Place

/-- The slots that a last field step addresses. -/
def fieldSlots (name : String) : Place μ (Value μ) → List (Slot μ)
  | .value (.object m _) => [⟨m, .field name⟩]
  | .value v => v.slots name
  | .hits hs => Hit.slotsOfAll name hs

/-- The slots that a last index step addresses. -/
def indexSlots (i : Nat) : Place μ (Value μ) → List (Slot μ)
  | .value (.array m items) => if i < items.length then [⟨m, .index i⟩] else []
  | .value _ => []
  | .hits hs => (hs[i]?.bind Hit.source).toList

/-- The slots that a last step addresses. -/
def slots : Step → Place μ (Value μ) → List (Slot μ)
  | .field name, p => p.fieldSlots name
  | .index i, p => p.indexSlots i

end Place

/-! ### Writing -/

section Writing

variable [DecidableEq μ]

/-- The items of the array with mark `m` after a write to slots. -/
def storeItems (slots : List (Slot μ)) (new : Value μ) (m : μ)
    (items : List (Value μ)) : List (Value μ) :=
  slots.foldl (fun items s =>
    match s.step with
    | .index i => if s.owner = m then items.set i new else items
    | .field _ => items) items

/-- The members of the object with mark `m` after a write to slots. -/
def storeMembers (slots : List (Slot μ)) (new : Value μ) (m : μ)
    (members : List (String × Value μ)) : List (String × Value μ) :=
  slots.foldl (fun members s =>
    match s.step with
    | .field name => if s.owner = m then Assoc.put name new members else members
    | .index _ => members) members

mutual

/-- The tree after `new` has been written to every slot, wherever its container
occurs. -/
def Value.write (slots : List (Slot μ)) (new : Value μ) : Value μ → Value μ
  | .array m items => .array m (storeItems slots new m (Value.writeItems slots new items))
  | .object m members =>
    .object m (storeMembers slots new m (Value.writeMembers slots new members))
  | v => v

/-- The items of an array after a write. -/
def Value.writeItems (slots : List (Slot μ)) (new : Value μ) :
    List (Value μ) → List (Value μ)
  | [] => []
  | v :: vs => Value.write slots new v :: Value.writeItems slots new vs

/-- The members of an object after a write. -/
def Value.writeMembers (slots : List (Slot μ)) (new : Value μ) :
    List (String × Value μ) → List (String × Value μ)
  | [] => []
  | (k, v) :: ms => (k, Value.write slots new v) :: Value.writeMembers slots new ms

end

end Writing

/-! ### Assigning -/

/-- The slots that a path addresses, at least one. -/
def Value.target (root : Value μ) (steps : List Step) : Except Obstacle (List (Slot μ)) :=
  match steps.getLast? with
  | none => .error .noStep
  | some last =>
    match root.reach steps.dropLast with
    | .error o => .error o
    | .ok p =>
      match p.slots last with
      | [] => .error .noSlot
      | slots => .ok slots

/-- The tree after `new` has been assigned at a path. -/
def Value.assign [DecidableEq μ] (root : Value μ) (steps : List Step) (new : Value μ) :
    Except Obstacle (Value μ) :=
  (root.target steps).map fun slots => Value.write slots new root

end JsonPaths
