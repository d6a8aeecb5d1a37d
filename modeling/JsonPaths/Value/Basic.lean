/-
JsonPaths/Value/Basic.lean

Value trees.

A `Value μ` is a JSON value whose arrays and objects carry a mark of type `μ`.
Two containers with one mark are one container that occurs at two places: a
write into it shows at both.  `Json` is the tree without marks and `Shared` the
tree that a document keeps.  `erase` forgets the marks; `withMarks` gives every
container a mark of its own.

A string is a row of characters.  A surrogate without its partner is no character, so
no key and no string of a value holds one, and nothing is said of values that would.
-/
import JsonPaths.Double.Basic
import JsonPaths.Assoc

namespace JsonPaths

/-- A tree of JSON values. -/
inductive Value (μ : Type) where
  | null
  | bool (b : Bool)
  | int (n : Int)
  | double (x : Double)
  | string (s : String)
  | array (mark : μ) (items : List (Value μ))
  | object (mark : μ) (members : List (String × Value μ))
  deriving Inhabited

/-- A JSON value. -/
abbrev Json := Value Unit

/-- A JSON value whose containers are told apart by numbers. -/
abbrev Shared := Value Nat

/-- The kinds of JSON values. -/
inductive Kind where
  | null
  | boolean
  | number
  | string
  | array
  | object
  deriving DecidableEq, Repr

namespace Value

variable {μ : Type}

/-! ### Induction -/

/-- Induction on a tree, with the hypothesis for every item and every member. -/
theorem ind {motive : Value μ → Prop} (null : motive .null)
    (bool : ∀ b, motive (.bool b)) (int : ∀ n, motive (.int n))
    (double : ∀ x, motive (.double x)) (string : ∀ s, motive (.string s))
    (array : ∀ m items, (∀ v ∈ items, motive v) → motive (.array m items))
    (object : ∀ m ms, (∀ p ∈ ms, motive p.2) → motive (.object m ms))
    (v : Value μ) : motive v :=
  Value.rec (motive_1 := motive) (motive_2 := fun l => ∀ v ∈ l, motive v)
    (motive_3 := fun l => ∀ p ∈ l, motive p.2) (motive_4 := fun p => motive p.2)
    null bool int double string array object
    (by simp) (fun _ _ h t => List.forall_mem_cons.2 ⟨h, t⟩)
    (by simp) (fun _ _ h t => List.forall_mem_cons.2 ⟨h, t⟩) (fun _ _ h => h) v

/-! ### Forgetting and giving marks -/

mutual

/-- The value without its marks. -/
def erase : Value μ → Json
  | .null => .null
  | .bool b => .bool b
  | .int n => .int n
  | .double x => .double x
  | .string s => .string s
  | .array _ items => .array () (eraseItems items)
  | .object _ members => .object () (eraseMembers members)

/-- The items of an array without their marks. -/
def eraseItems : List (Value μ) → List Json
  | [] => []
  | v :: vs => v.erase :: eraseItems vs

/-- The members of an object without their marks. -/
def eraseMembers : List (String × Value μ) → List (String × Json)
  | [] => []
  | (k, v) :: ms => (k, v.erase) :: eraseMembers ms

end

mutual

/-- The value with fresh marks from `next` on, in the order of its text, and
the first mark not used. -/
def withMarks (next : Nat) : Value μ → Shared × Nat
  | .null => (.null, next)
  | .bool b => (.bool b, next)
  | .int n => (.int n, next)
  | .double x => (.double x, next)
  | .string s => (.string s, next)
  | .array _ items =>
    let (items, n) := markItems (next + 1) items
    (.array next items, n)
  | .object _ members =>
    let (members, n) := markMembers (next + 1) members
    (.object next members, n)

/-- Fresh marks for the items of an array. -/
def markItems (next : Nat) : List (Value μ) → List Shared × Nat
  | [] => ([], next)
  | v :: vs =>
    let (v, n) := v.withMarks next
    let (vs, n) := markItems n vs
    (v :: vs, n)

/-- Fresh marks for the members of an object. -/
def markMembers (next : Nat) : List (String × Value μ) → List (String × Shared) × Nat
  | [] => ([], next)
  | (k, v) :: ms =>
    let (v, n) := v.withMarks next
    let (ms, n) := markMembers n ms
    ((k, v) :: ms, n)

end

theorem eraseItems_eq_map (l : List (Value μ)) : eraseItems l = l.map erase := by
  induction l with
  | nil => rfl
  | cons v vs ih => simp [eraseItems, ih]

theorem eraseMembers_eq_map (l : List (String × Value μ)) :
    eraseMembers l = l.map fun p => (p.1, p.2.erase) := by
  induction l with
  | nil => rfl
  | cons p ms ih => simp [eraseMembers, ih]

/-! ### Kinds -/

/-- The kind of a value. -/
def kind : Value μ → Kind
  | .null => .null
  | .bool _ => .boolean
  | .int _ | .double _ => .number
  | .string _ => .string
  | .array _ _ => .array
  | .object _ _ => .object

end Value

end JsonPaths
