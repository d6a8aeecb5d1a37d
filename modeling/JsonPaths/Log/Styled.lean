/-
JsonPaths/Log/Styled.lean

Text with styles.

A styled text is its characters and the stretches of them that have a style.
The control characters 7, 8, 11, 12 and 13 are dropped from every text that is
styled.
-/

namespace JsonPaths

/-- A style from one place up to, but without, another. -/
structure Span where
  start : Nat
  stop : Nat
  style : String
  deriving DecidableEq, Repr

/-- A text with styles, in the order they were added. -/
structure Styled where
  chars : List Char
  spans : List Span
  deriving DecidableEq, Repr

namespace Styled

/-- Whether a character is kept in a styled text. -/
def isKept (c : Char) : Bool :=
  !(c.toNat = 7 || c.toNat = 8 || c.toNat = 11 || c.toNat = 12 || c.toNat = 13)

/-- A text without the characters that are dropped. -/
def clean (s : List Char) : List Char := s.filter isKept

/-- A text without style. -/
def plain (s : List Char) : Styled := ⟨clean s, []⟩

/-- A text in one style, if there is a style. -/
def inStyle (s : List Char) (style : Option String) : Styled :=
  let cs := clean s
  ⟨cs, match style with
    | some st => [⟨0, cs.length, st⟩]
    | none => []⟩

/-- A span further on. -/
def shift (n : Nat) (s : Span) : Span := ⟨s.start + n, s.stop + n, s.style⟩

/-- One text after another. -/
def append (a b : Styled) : Styled :=
  ⟨a.chars ++ b.chars, a.spans ++ b.spans.map (shift a.chars.length)⟩

/-- Texts in a row. -/
def concat (ts : List Styled) : Styled := ts.foldl append ⟨[], []⟩

/-- Adds a style to a stretch.  What lies past the end of the text is cut off,
and an empty stretch is not styled. -/
def stylize (t : Styled) (style : String) (start stop : Nat) : Styled :=
  if t.chars.length ≤ start || stop ≤ start then t
  else { t with spans := t.spans ++ [⟨start, min t.chars.length stop, style⟩] }

/-- The place where one text first occurs in another. -/
def occurrence? (part : List Char) : List Char → Option Nat
  | [] => if part.isEmpty then some 0 else none
  | c :: r =>
    if part.isPrefixOf (c :: r) then some 0 else (occurrence? part r).map (· + 1)

end Styled

end JsonPaths
