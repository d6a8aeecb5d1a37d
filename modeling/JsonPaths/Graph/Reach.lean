/-
JsonPaths/Graph/Reach.lean

Paths in a value graph.

The rules are those of value trees, with nodes in the place of values: an object
is known by its number, so a write shows wherever the object occurs.  A path
that meets a thing of a kind that JSON does not have where it must look inside
ends there.
-/
import JsonPaths.Graph.Text
import JsonPaths.Path.Assign

namespace JsonPaths.Graph

/-- Why a path does not lead anywhere in a graph: an obstacle as in a tree, or a
node that is no JSON value. -/
inductive Stop where
  | obstacle (o : Obstacle)
  | foreign (i : Nat)
  deriving DecidableEq, Repr

/-- The hits of fields in a graph. -/
abbrev NodeHit := Hit Nat Nat

/-- The places that a path reaches in a graph. -/
abbrev NodePlace := Place Nat Nat

/-! ### Hits of a field -/

/-- The hit of a field at a node.  The fuel bounds the depth of arrays within
arrays. -/
def pickFrom (g : Graph) (name : String) :
    (fuel : Nat) → Nat → Except Stop (Option NodeHit)
  | 0, _ => .ok none
  | fuel + 1, i =>
    match g.node i with
    | .object members => .ok ((members.lookup (.text name)).map (.member i name))
    | .array items =>
      (items.mapM (pickFrom g name fuel)).map fun hits => Hit.gather (hits.filterMap id)
    | n =>
      match n.kind with
      | .ok _ => .ok none
      | .error _ => .error (.foreign i)

/-- The hit of a field at a node. -/
def pick (g : Graph) (name : String) (i : Nat) : Except Stop (Option NodeHit) :=
  g.pickFrom name g.depth i

mutual

/-- The hit of a field in a hit. -/
def pickHit (g : Graph) (name : String) : NodeHit → Except Stop (Option NodeHit)
  | .member _ _ i => g.pick name i
  | .gathered hs => (pickHits g name hs).map Hit.gather

/-- The hits of a field in a list of hits, in order. -/
def pickHits (g : Graph) (name : String) : List NodeHit → Except Stop (List NodeHit)
  | [] => .ok []
  | h :: hs => do
    let found ← pickHit g name h
    return found.toList ++ (← pickHits g name hs)

end

/-! ### Walking -/

/-- The place that a step leads to, if there is one. -/
def follow (g : Graph) : Step → NodePlace → Except Stop (Option NodePlace)
  | .field name, .value i => (g.pick name i).map (·.map Hit.place)
  | .field name, .hits hs => (g.pickHits name hs).map fun hits => (Hit.gather hits).map Hit.place
  | .index k, .value i =>
    match g.node i with
    | .array items => .ok (items[k]?.map .value)
    | n =>
      match n.kind with
      | .ok _ => .ok none
      | .error _ => .error (.foreign i)
  | .index k, .hits hs => .ok (hs[k]?.map Hit.place)

/-- Takes the steps one after the other; `done` of them were taken before. -/
def walk (g : Graph) (p : NodePlace) (done : Nat) : List Step → Except Stop NodePlace
  | [] => .ok p
  | s :: ss => do
    match ← g.follow s p with
    | none => .error (.obstacle (.unresolved done))
    | some q => g.walk q (done + 1) ss

/-- The place that a path leads to from a node. -/
def reach (g : Graph) (root : Nat) (steps : List Step) : Except Stop NodePlace :=
  g.walk (.value root) 0 steps

/-! ### The value at a place -/

mutual

/-- The JSON value that a hit is written as. -/
def hitJson (g : Graph) : NodeHit → Except Unwritable Json
  | .member _ _ i => g.json i
  | .gathered hs => (hitsJson g hs).map (.array ())

/-- The JSON values that hits are written as. -/
def hitsJson (g : Graph) : List NodeHit → Except Unwritable (List Json)
  | [] => .ok []
  | h :: hs => do
    let v ← hitJson g h
    return v :: (← hitsJson g hs)

end

/-- The JSON value that a place is written as. -/
def placeJson (g : Graph) : NodePlace → Except Unwritable Json
  | .value i => g.json i
  | .hits hs => (g.hitsJson hs).map (.array ())

/-! ### Slots -/

/-- The members of a given name in the objects that have one, reached from a
node through arrays only.  The fuel bounds the depth. -/
def slotsFrom (g : Graph) (name : String) :
    (fuel : Nat) → Nat → Except Stop (List (Slot Nat))
  | 0, _ => .ok []
  | fuel + 1, i =>
    match g.node i with
    | .object members =>
      .ok (if (members.lookup (.text name)).isSome then [⟨i, .field name⟩] else [])
    | .array items => (items.mapM (slotsFrom g name fuel)).map List.flatten
    | n =>
      match n.kind with
      | .ok _ => .ok []
      | .error _ => .error (.foreign i)

/-- The slots of a field reached from a node through arrays only. -/
def slotsAt (g : Graph) (name : String) (i : Nat) : Except Stop (List (Slot Nat)) :=
  g.slotsFrom name g.depth i

mutual

/-- The slots in a hit. -/
def hitSlots (g : Graph) (name : String) : NodeHit → Except Stop (List (Slot Nat))
  | .member _ _ i => g.slotsAt name i
  | .gathered hs => hitsSlots g name hs

/-- The slots in a list of hits, in order. -/
def hitsSlots (g : Graph) (name : String) : List NodeHit → Except Stop (List (Slot Nat))
  | [] => .ok []
  | h :: hs => do
    let slots ← hitSlots g name h
    return slots ++ (← hitsSlots g name hs)

end

/-- The slots that a last step addresses at a place. -/
def placeSlots (g : Graph) : Step → NodePlace → Except Stop (List (Slot Nat))
  | .field name, .value i =>
    match g.node i with
    | .object _ => .ok [⟨i, .field name⟩]
    | _ => g.slotsAt name i
  | .field name, .hits hs => g.hitsSlots name hs
  | .index k, .value i =>
    match g.node i with
    | .array items => .ok (if k < items.length then [⟨i, .index k⟩] else [])
    | _ => .ok []
  | .index k, .hits hs => .ok (hs[k]?.bind Hit.source).toList

/-! ### Assigning -/

/-- The graph after node `new` has been stored at a slot. -/
def store (new : Nat) (g : Graph) (s : Slot Nat) : Graph :=
  match s.step, g.node s.owner with
  | .index k, .array items => g.put s.owner (.array (items.set k new))
  | .field name, .object members =>
    g.put s.owner (.object (Assoc.put (.text name) new members))
  | _, _ => g

/-- The slots that a path addresses, at least one. -/
def target (g : Graph) (root : Nat) (steps : List Step) : Except Stop (List (Slot Nat)) :=
  match steps.getLast? with
  | none => .error (.obstacle .noStep)
  | some last => do
    match ← g.placeSlots last (← g.reach root steps.dropLast) with
    | [] => .error (.obstacle .noSlot)
    | slots => .ok slots

/-- The graph after node `new` has been assigned at a path. -/
def assign (g : Graph) (root : Nat) (steps : List Step) (new : Nat) : Except Stop Graph :=
  (g.target root steps).map fun slots => slots.foldl (store new) g

end JsonPaths.Graph
