/-
JsonPaths/Log/Template.lean

Message templates.

Two percent signs in a template stand for one.  Any other percent sign starts a
placeholder: flags, a width, a precision after a point, an ignored size letter,
and the letter of a conversion.  Each placeholder takes the next argument, which
is a text: `s` inserts it, `r` and `a` insert it quoted, and `c` inserts it if
it is one character.  A template fits its arguments if every placeholder is one
of these and the arguments are used up.
-/
import JsonPaths.Text.Quoted

namespace JsonPaths.Log.Template

/-! ### Placeholders -/

/-- A placeholder. -/
structure Placeholder where
  toLeft : Bool
  width : Nat
  precision : Option Nat
  conversion : Char
  deriving DecidableEq, Repr

/-- The greatest width and the greatest precision. -/
def sizeLimit : Nat := 2147483647

/-- A number at the start of a text, if there are digits and they are in the
limit; without digits it is zero. -/
def readSize (s : List Char) : Option (Nat × List Char) :=
  let (ds, r) := (s.takeWhile Char.isDigit, s.dropWhile Char.isDigit)
  let n := Nat.ofDigitChars 10 ds 0
  if n ≤ sizeLimit then some (n, r) else none

/-- The precision after a point. -/
def readPrecision (s : List Char) : Option (Option Nat × List Char) :=
  match s with
  | '.' :: r => (readSize r).map fun (n, r) => (some n, r)
  | _ => some (none, s)

/-- The text after a size letter. -/
def skipSize (s : List Char) : List Char :=
  match s with
  | c :: r => if c = 'h' || c = 'l' || c = 'L' then r else s
  | [] => []

/-- Whether a character is a flag. -/
def isFlag (c : Char) : Bool := "-+ #0".toList.contains c

/-- The placeholder after a percent sign, and the text after it. -/
def readPlaceholder (s : List Char) : Option (Placeholder × List Char) :=
  let flags := s.takeWhile isFlag
  match readSize (s.dropWhile isFlag) with
  | none => none
  | some (width, r) =>
    match readPrecision r with
    | none => none
    | some (precision, r) =>
      match skipSize r with
      | [] => none
      | c :: r => some (⟨flags.contains '-', width, precision, c⟩, r)

theorem length_le_of_readSize {s r : List Char} {n : Nat} (h : readSize s = some (n, r)) :
    r.length ≤ s.length := by
  simp only [readSize] at h
  split at h
  · simp only [Option.some.injEq, Prod.mk.injEq] at h
    rw [← h.2]
    exact (List.dropWhile_sublist _).length_le
  · simp at h

theorem length_le_of_readPrecision {s r : List Char} {p : Option Nat}
    (h : readPrecision s = some (p, r)) : r.length ≤ s.length := by
  unfold readPrecision at h
  split at h
  · next t =>
    cases hs : readSize t with
    | none => simp [hs] at h
    | some q =>
      have := length_le_of_readSize (s := t) (n := q.1) (r := q.2) hs
      simp only [hs, Option.map_some, Option.some.injEq, Prod.mk.injEq] at h
      rw [← h.2]
      simp only [List.length_cons]
      omega
  · simp only [Option.some.injEq, Prod.mk.injEq] at h
    simp [← h.2]

theorem length_skipSize_le (s : List Char) : (skipSize s).length ≤ s.length := by
  unfold skipSize
  split
  · split <;> simp
  · simp

theorem length_lt_of_readPlaceholder {s r : List Char} {p : Placeholder}
    (h : readPlaceholder s = some (p, r)) : r.length < s.length := by
  unfold readPlaceholder at h
  have hf : (s.dropWhile isFlag).length ≤ s.length := (List.dropWhile_sublist _).length_le
  split at h
  · simp at h
  · next hw =>
    have := length_le_of_readSize hw
    split at h
    · simp at h
    · next r₂ hp =>
      have := length_le_of_readPrecision hp
      have hk := length_skipSize_le r₂
      split at h
      · simp at h
      · next hc =>
        simp only [Option.some.injEq, Prod.mk.injEq] at h
        rw [hc, List.length_cons] at hk
        rw [← h.2]
        omega

/-! ### Filling in -/

/-- The text that a placeholder inserts for an argument, before it is padded. -/
def convert (p : Placeholder) (arg : String) : Option (List Char) :=
  let cut (s : List Char) := match p.precision with
    | some n => s.take n
    | none => s
  if p.conversion = 's' then some (cut arg.toList)
  else if p.conversion = 'r' then some (cut (Text.quoted arg.toList))
  else if p.conversion = 'a' then some (cut (Text.quotedAscii arg.toList))
  else if p.conversion = 'c' then
    match arg.toList with
    | [c] => some [c]
    | _ => none
  else none

/-- A text filled up with spaces to the width of a placeholder. -/
def pad (p : Placeholder) (s : List Char) : List Char :=
  let fill := List.replicate (p.width - s.length) ' '
  if p.toLeft then s ++ fill else fill ++ s

/-- The template with its placeholders filled in, if it fits the arguments. -/
def fill (args : List String) (s : List Char) : Option (List Char) :=
  match s with
  | [] => if args.isEmpty then some [] else none
  | '%' :: '%' :: r => (fill args r).map ('%' :: ·)
  | '%' :: r =>
    match _h : readPlaceholder r, args with
    | some (p, r'), a :: as =>
      match convert p a with
      | none => none
      | some t => (fill as r').map (pad p t ++ ·)
    | _, _ => none
  | c :: r => (fill args r).map (c :: ·)
termination_by s.length
decreasing_by
  · simp only [List.length_cons]
    omega
  · have := length_lt_of_readPlaceholder _h
    simp only [List.length_cons]
    omega
  · simp

/-- The message of a template.  Without arguments it is the template itself. -/
def message (template : List Char) (args : List String) : Option (List Char) :=
  if args.isEmpty then some template else fill args template

end JsonPaths.Log.Template
