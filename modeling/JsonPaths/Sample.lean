/-
JsonPaths/Sample.lean

A small document that shows fields, arrays and numbers.
-/
import JsonPaths.Value.Basic

namespace JsonPaths.Sample

/-- The sample value: an object with a leaf and an array of two objects. -/
def value : Json :=
  .object () [("root", .object () [
    ("leaf", .string "leafValue"),
    ("array", .array () [
      .object () [("arrayLeaf", .string "arrayLeafValue"), ("property", .string "value")],
      .object () [("arrayInt", .int 100), ("property", .string "anotherValue")]])])]

end JsonPaths.Sample
