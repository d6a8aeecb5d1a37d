/-
JsonPaths/Path/Gathered.lean

Reading with lists that know where their items were read from.

A walk holds a JSON value, or a list that a field has gathered.  Such a list is a list like
any other, and beside it stands a second one: item by item the slot that the item was read
from, and nothing for an item that was itself gathered, from a list within the list.  The two
grow together while the field is taken in one element after the other.  `Path/Reach` keeps
each item together with its slot instead.
-/
import JsonPaths.Path.Assign

namespace JsonPaths

variable {μ : Type}

/-- A value as a walk holds it: a JSON value, or a list that a field has gathered, with the
slots of its items. -/
inductive Held (μ : Type) where
  | null
  | bool (b : Bool)
  | int (n : Int)
  | double (x : Double)
  | string (s : String)
  | array (mark : μ) (items : List (Held μ))
  | object (mark : μ) (members : List (String × Held μ))
  | gathered (items : List (Held μ)) (slots : List (Option (Slot μ)))
  deriving Inhabited

namespace Held

/-! ### JSON values -/

mutual

/-- A JSON value as a walk holds it. -/
def ofValue : Value μ → Held μ
  | .null => .null
  | .bool b => .bool b
  | .int n => .int n
  | .double x => .double x
  | .string s => .string s
  | .array m items => .array m (ofItems items)
  | .object m members => .object m (ofMembers members)

/-- The items of an array as a walk holds them. -/
def ofItems : List (Value μ) → List (Held μ)
  | [] => []
  | v :: vs => ofValue v :: ofItems vs

/-- The members of an object as a walk holds them. -/
def ofMembers : List (String × Value μ) → List (String × Held μ)
  | [] => []
  | (k, v) :: ms => (k, ofValue v) :: ofMembers ms

end

/-! ### Steps -/

/-- The slot that a field of a value is read from, if the value is an object. -/
def slot? (name : String) : Held μ → Option (Slot μ)
  | .object m _ => some ⟨m, .field name⟩
  | _ => none

/-- Items and slots as a gathered list; no items are none. -/
def gather : List (Held μ) × List (Option (Slot μ)) → Option (Held μ)
  | ([], _) => none
  | (items, slots) => some (.gathered items slots)

mutual

/-- What a field comes to in a value: a member of an object, or what is gathered in the
elements of a list. -/
def field (name : String) : Held μ → Option (Held μ)
  | .object _ members => members.lookup name
  | .array _ items | .gathered items _ => gather (fieldAll name [] [] items)
  | _ => none

/-- What a field comes to in the elements of a list, put behind the items and the slots that
there are; an element without the field is left out. -/
def fieldAll (name : String) (items : List (Held μ)) (slots : List (Option (Slot μ))) :
    List (Held μ) → List (Held μ) × List (Option (Slot μ))
  | [] => (items, slots)
  | v :: vs =>
    match v.field name with
    | none => fieldAll name items slots vs
    | some w => fieldAll name (items ++ [w]) (slots ++ [v.slot? name]) vs

end

/-- The element of a list at a place. -/
def index (i : Nat) : Held μ → Option (Held μ)
  | .array _ items | .gathered items _ => items[i]?
  | _ => none

/-- What a step leads to, if there is something. -/
def step : Step → Held μ → Option (Held μ)
  | .field name => field name
  | .index i => index i

/-- Takes the steps one after the other; `done` of them were taken before. -/
def walk (v : Held μ) (done : Nat) : List Step → Except Obstacle (Held μ)
  | [] => .ok v
  | s :: ss =>
    match v.step s with
    | none => .error (.unresolved done)
    | some w => w.walk (done + 1) ss

/-- The slots that a last index step addresses. -/
def indexSlots (i : Nat) : Held μ → List (Slot μ)
  | .gathered items slots => if i < items.length then slots[i]?.join.toList else []
  | .array m items => if i < items.length then [⟨m, .index i⟩] else []
  | _ => []

/-! ### Plain values -/

mutual

/-- The value with arrays in the place of gathered lists; they have the mark `fresh`. -/
def plain (fresh : μ) : Held μ → Held μ
  | .gathered items _ => .array fresh (plainAll fresh items)
  | v => v

/-- The elements of a gathered list with arrays in the place of gathered lists. -/
def plainAll (fresh : μ) : List (Held μ) → List (Held μ)
  | [] => []
  | v :: vs => v.plain fresh :: plainAll fresh vs

end

end Held

end JsonPaths
