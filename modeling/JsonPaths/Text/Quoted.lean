/-
JsonPaths/Text/Quoted.lean

Text shown between quotes in messages.

The quote is an apostrophe, or a double quote if the text has an apostrophe and
no double quote.  The quote in use and the backslash are escaped by a backslash,
line feed, carriage return and tab by a letter, and every other character that
is not to be shown by the shortest hexadecimal escape that holds it.
-/
import JsonPaths.Text.Numeral
import JsonPaths.Text.Printable

namespace JsonPaths.Text

/-- The hexadecimal digits of `n`, with zeros in front up to `width`. -/
def hex (width n : Nat) : List Char := zeroPadded width (Nat.toDigits 16 n)

/-- The escape of a code point by number. -/
def codeEscape (n : Nat) : List Char :=
  if n < 0x100 then '\\' :: 'x' :: hex 2 n
  else if n < 0x10000 then '\\' :: 'u' :: hex 4 n
  else '\\' :: 'U' :: hex 8 n

/-- The quote that a text is shown in. -/
def quoteFor (s : List Char) : Char :=
  if s.contains '\x27' && !s.contains '"' then '"' else '\x27'

/-- One character of a quoted text; `plain` says which are shown as they are. -/
def escapeIn (quote : Char) (plain : Char → Bool) (c : Char) : List Char :=
  if c = quote ∨ c = '\\' then ['\\', c]
  else if c = '\n' then ['\\', 'n']
  else if c = '\r' then ['\\', 'r']
  else if c = '\t' then ['\\', 't']
  else if plain c then [c]
  else codeEscape c.toNat

/-- The text in quotes. -/
def quotedWith (plain : Char → Bool) (s : List Char) : List Char :=
  let q := quoteFor s
  q :: (s.flatMap (escapeIn q plain) ++ [q])

/-- The text in quotes, every printable character shown as it is. -/
def quoted (s : List Char) : List Char := quotedWith isPrintable s

/-- The text in quotes, every printable character of ASCII shown as it is. -/
def quotedAscii (s : List Char) : List Char :=
  quotedWith (fun c => 32 ≤ c.toNat && c.toNat < 127) s

/-- The quoted form of characters, as a string. -/
def showChars (s : List Char) : String := String.ofList (quoted s)

/-- The quoted form of a string. -/
def showText (s : String) : String := showChars s.toList

end JsonPaths.Text
