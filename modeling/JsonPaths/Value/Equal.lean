/-
JsonPaths/Value/Equal.lean

Equality of JSON values by kind and by value.

Whole numbers and doubles are compared as exact numbers, and a truth value is
no number.  Arrays are compared item by item, objects by their sets of keys and
the values under each key, whatever the order of the members.
-/
import JsonPaths.Value.Basic

namespace JsonPaths.Value

variable {μ ν : Type}

mutual

/-- Whether two values are equal. -/
def equal (a : Value μ) (b : Value ν) : Bool :=
  match a, b with
  | .null, .null => true
  | .bool a, .bool b => a == b
  | .int a, .int b => a == b
  | .int a, .double y => y.equalsInt a
  | .double x, .int b => x.equalsInt b
  | .double x, .double y => x.equals y
  | .string a, .string b => a == b
  | .array _ as, .array _ bs => as.length = bs.length && equalItems as bs
  | .object _ as, .object _ bs => Assoc.sameKeys as bs && equalMembers as bs
  | _, _ => false

/-- Whether the items of two arrays are equal in turn. -/
def equalItems : List (Value μ) → List (Value ν) → Bool
  | a :: as, b :: bs => equal a b && equalItems as bs
  | _, _ => true

/-- Whether every member on the left equals the one of its key on the right. -/
def equalMembers : List (String × Value μ) → List (String × Value ν) → Bool
  | (k, a) :: as, bs =>
    match bs.lookup k with
    | none => false
    | some b => equal a b && equalMembers as bs
  | [], _ => true

end

end JsonPaths.Value
