/-
JsonPaths/Json/Reader.lean

Reading JSON text.

The reader takes the grammar of JSON with the numbers NaN, Infinity and
-Infinity, unbounded whole numbers of at most 4300 digits, and a repeated key
keeping its first place and its last value.  Texts that write a surrogate without its
partner are out of scope, since what they stand for is no `Value`.  A reader function
consumes a part of the remaining text; when it stops, it names the fault and the text that
remained there, from which `read` finds the line and the column.
-/
import JsonPaths.Value.Basic
import JsonPaths.Double.Rounding
import JsonPaths.Text.Numeral

namespace JsonPaths.Json

/-! ### Faults -/

/-- What is wrong with a text that is not JSON. -/
inductive Fault where
  | byteOrderMark
  | expectingValue
  | expectingName
  | expectingColon
  | expectingComma
  | unterminatedString
  | controlCharacter
  | badEscape
  | badCodeEscape
  | extraData
  deriving DecidableEq, Repr

/-- The words of a fault. -/
def Fault.words : Fault → String
  | .byteOrderMark => "Unexpected UTF-8 BOM (decode using utf-8-sig)"
  | .expectingValue => "Expecting value"
  | .expectingName => "Expecting property name enclosed in double quotes"
  | .expectingColon => "Expecting ':' delimiter"
  | .expectingComma => "Expecting ',' delimiter"
  | .unterminatedString => "Unterminated string starting at"
  | .controlCharacter => "Invalid control character at"
  | .badEscape => "Invalid \\escape"
  | .badCodeEscape => "Invalid \\uXXXX escape"
  | .extraData => "Extra data"

/-- Why reading stopped: a fault, with the text that remained where it lies, or
a whole number with too many digits. -/
inductive Stop where
  | fault (f : Fault) (rest : List Char)
  | tooManyDigits (count : Nat)
  deriving DecidableEq, Repr

/-! ### Blanks and strings -/

/-- The four blank characters of JSON. -/
def isBlank (c : Char) : Bool := c = ' ' ∨ c = '\t' ∨ c = '\n' ∨ c = '\r'

/-- The text after its leading blanks. -/
def skipBlank (s : List Char) : List Char := s.dropWhile isBlank

/-- The value of a hexadecimal digit. -/
def hexDigit? (c : Char) : Option Nat :=
  if '0' ≤ c ∧ c ≤ '9' then some (c.toNat - 48)
  else if 'a' ≤ c ∧ c ≤ 'f' then some (c.toNat - 87)
  else if 'A' ≤ c ∧ c ≤ 'F' then some (c.toNat - 55)
  else none

/-- The number that four hexadecimal digits write. -/
def hexFour? (a b c d : Char) : Option Nat := do
  let a ← hexDigit? a
  let b ← hexDigit? b
  let c ← hexDigit? c
  let d ← hexDigit? d
  return ((a * 16 + b) * 16 + c) * 16 + d

/-- The character that a letter after a backslash stands for. -/
def shortEscape? (c : Char) : Option Char :=
  if c = '"' ∨ c = '\\' ∨ c = '/' then some c
  else if c = 'b' then some '\x08'
  else if c = 'f' then some '\x0c'
  else if c = 'n' then some '\n'
  else if c = 'r' then some '\r'
  else if c = 't' then some '\t'
  else none

/-- The code point that two surrogates stand for. -/
def joinSurrogates (high low : Nat) : Nat :=
  0x10000 + (high - 0xd800) * 0x400 + (low - 0xdc00)

/-- The code after the letter of a code escape: four hexadecimal digits, with a
character after them.  The argument starts with the letter. -/
def readCode (s : List Char) : Except Stop (Nat × List Char) :=
  match s with
  | _ :: a :: b :: c :: d :: e :: r =>
    match hexFour? a b c d with
    | some n => .ok (n, e :: r)
    | none => .error (.fault .badCodeEscape s)
  | _ => .error (.fault .badCodeEscape s)

/-- The second of two surrogates, if one is written next. -/
def readLow (s : List Char) : Except Stop (Option (Nat × List Char)) :=
  match s with
  | '\\' :: 'u' :: a :: b :: c :: d :: e :: r =>
    match readCode ('u' :: a :: b :: c :: d :: e :: r) with
    | .error e => .error e
    | .ok (n, r) => .ok (if 0xdc00 ≤ n ∧ n < 0xe000 then some (n, r) else none)
  | _ => .ok none

/-- The character that an escape stands for; the text starts after the
backslash.  A surrogate without its partner is no character; the replacement character
stands in for it, so that the reader goes on as it does behind any escape. -/
def readEscape (s : List Char) : Except Stop (Char × List Char) :=
  match s with
  | [] => .error (.fault .unterminatedString s)
  | 'u' :: _ =>
    match readCode s with
    | .error e => .error e
    | .ok (n, r) =>
      if 0xd800 ≤ n ∧ n < 0xdc00 then
        match readLow r with
        | .error e => .error e
        | .ok (some (low, r)) => .ok (Char.ofNat (joinSurrogates n low), r)
        | .ok none => .ok ('\ufffd', r)
      else if 0xdc00 ≤ n ∧ n < 0xe000 then .ok ('\ufffd', r)
      else .ok (Char.ofNat n, r)
  | c :: r =>
    match shortEscape? c with
    | some x => .ok (x, r)
    | none => .error (.fault .badEscape ('\\' :: s))

theorem length_lt_of_readCode {s r : List Char} {n : Nat} (h : readCode s = .ok (n, r)) :
    r.length < s.length := by
  unfold readCode at h
  split at h
  · split at h
    · simp only [Except.ok.injEq, Prod.mk.injEq] at h
      simp [← h.2]
    · simp at h
  · simp at h

theorem length_lt_of_readLow {s r : List Char} {n : Nat}
    (h : readLow s = .ok (some (n, r))) : r.length < s.length := by
  unfold readLow at h
  split at h
  · split at h
    · simp at h
    · next hc =>
      have := length_lt_of_readCode hc
      split at h
      · simp only [Except.ok.injEq, Option.some.injEq, Prod.mk.injEq] at h
        simp [← h.2] at this ⊢
        omega
      · simp at h
  · simp at h

theorem length_lt_of_readEscape {s r : List Char} {c : Char} (h : readEscape s = .ok (c, r)) :
    r.length < s.length := by
  unfold readEscape at h
  split at h
  · simp at h
  · split at h
    · simp at h
    · next hc =>
      have hlt := length_lt_of_readCode hc
      split at h
      · split at h
        · simp at h
        · next hl =>
          simp only [Except.ok.injEq, Prod.mk.injEq] at h
          have := length_lt_of_readLow hl
          rw [← h.2]
          omega
        · simp only [Except.ok.injEq, Prod.mk.injEq] at h
          exact h.2 ▸ hlt
      · split at h <;>
        · simp only [Except.ok.injEq, Prod.mk.injEq] at h
          exact h.2 ▸ hlt
  · split at h
    · simp only [Except.ok.injEq, Prod.mk.injEq] at h
      simp [← h.2]
    · simp at h

/-- The rest of a string after its opening quote: the characters before `s`, in
reverse, are in `done`, and the string started at `start`. -/
def readString (start : List Char) (done : List Char) (s : List Char) :
    Except Stop (List Char × List Char) :=
  match s with
  | [] => .error (.fault .unterminatedString start)
  | '"' :: r => .ok (done.reverse, r)
  | ['\\'] => .error (.fault .unterminatedString start)
  | '\\' :: r =>
    match _h : readEscape r with
    | .error e => .error e
    | .ok (c, r') => readString start (c :: done) r'
  | c :: r =>
    if c.toNat < 32 then .error (.fault .controlCharacter (c :: r))
    else readString start (c :: done) r
termination_by s.length
decreasing_by
  all_goals simp_wf
  have := length_lt_of_readEscape _h
  omega

/-! ### Numbers -/

/-- The digits after a decimal point, if the text starts with a point and a
digit. -/
def readFraction (s : List Char) : List Char × List Char :=
  match s with
  | '.' :: r => if (r.takeWhile Char.isDigit).isEmpty then ([], s) else r.span Char.isDigit
  | _ => ([], s)

/-- The exponent, if the text starts with one that has a digit. -/
def readExponent (s : List Char) : Option Int × List Char :=
  match s with
  | c :: r =>
    if c = 'e' ∨ c = 'E' then
      let (negative, r) := match r with
        | '-' :: r => (true, r)
        | '+' :: r => (false, r)
        | _ => (false, r)
      let (ds, r) := r.span Char.isDigit
      if ds.isEmpty then (none, s) else (some (Text.signed negative ds), r)
    else (none, s)
  | [] => (none, s)

/-- The whole digits of a number: a zero alone, or a run that starts with
another digit. -/
def readWhole (s : List Char) : List Char × List Char :=
  match s with
  | '0' :: r => (['0'], r)
  | _ => s.span Char.isDigit

/-- A number.  Without a fraction and an exponent it is a whole number. -/
def readNumber (s : List Char) : Except Stop (Json × List Char) :=
  let (negative, r) := match s with
    | '-' :: r => (true, r)
    | _ => (false, s)
  let (whole, r) := readWhole r
  if whole.isEmpty then .error (.fault .expectingValue s)
  else
    let (fraction, r) := readFraction r
    let (exponent, r) := readExponent r
    if fraction.isEmpty && exponent.isNone then
      if Text.digitLimit < whole.length then .error (.tooManyDigits whole.length)
      else .ok (.int (Text.signed negative whole), r)
    else
      .ok (.double (.ofDecimal negative (Nat.ofDigitChars 10 (whole ++ fraction) 0)
        (exponent.getD 0 - fraction.length)), r)

/-- The words that stand for values. -/
def words : List (String × Json) := [
  ("null", .null), ("true", .bool true), ("false", .bool false), ("NaN", .double .nan),
  ("Infinity", .double (.infinite false)), ("-Infinity", .double (.infinite true))]

/-- The value of the first of some words that the text starts with. -/
def readWord? (s : List Char) : List (String × Json) → Option (Json × List Char)
  | [] => none
  | (word, v) :: ws =>
    if word.toList.isPrefixOf s then some (v, s.drop word.length) else readWord? s ws

/-- A value that starts with neither a bracket, a brace nor a quote. -/
def readPlain (s : List Char) : Except Stop (Json × List Char) :=
  match readWord? s words with
  | some read => .ok read
  | none => readNumber s

/-! ### Values -/

mutual

/-- A value at the start of the text.  The fuel bounds the calls below. -/
def readValue (fuel : Nat) (s : List Char) : Except Stop (Json × List Char) :=
  match fuel with
  | 0 => .error (.fault .expectingValue s)
  | fuel + 1 =>
    match s with
    | '"' :: r => (readString s [] r).map fun (t, r) => (.string (String.ofList t), r)
    | '[' :: r =>
      match skipBlank r with
      | ']' :: r => .ok (.array () [], r)
      | r => readItems fuel [] r
    | '\x7b' :: r =>
      match skipBlank r with
      | '\x7d' :: r => .ok (.object () [], r)
      | r => readMembers fuel [] r
    | _ => readPlain s

/-- An array from an item on, the items before it being in `done`, in reverse. -/
def readItems (fuel : Nat) (done : List Json) (s : List Char) :
    Except Stop (Json × List Char) :=
  match fuel with
  | 0 => .error (.fault .expectingValue s)
  | fuel + 1 =>
    match readValue fuel s with
    | .error e => .error e
    | .ok (v, r) =>
      match skipBlank r with
      | ']' :: r => .ok (.array () (v :: done).reverse, r)
      | ',' :: r => readItems fuel (v :: done) (skipBlank r)
      | r => .error (.fault .expectingComma r)

/-- An object from a member on, the members before it being in `done`, in
reverse. -/
def readMembers (fuel : Nat) (done : List (String × Json)) (s : List Char) :
    Except Stop (Json × List Char) :=
  match fuel with
  | 0 => .error (.fault .expectingValue s)
  | fuel + 1 =>
    match s with
    | '"' :: r =>
      match readString s [] r with
      | .error e => .error e
      | .ok (k, r) =>
        match skipBlank r with
        | ':' :: r =>
          match readValue fuel (skipBlank r) with
          | .error e => .error e
          | .ok (v, r) =>
            let done := (String.ofList k, v) :: done
            match skipBlank r with
            | '\x7d' :: r => .ok (.object () (Assoc.ofList done.reverse), r)
            | ',' :: r => readMembers fuel done (skipBlank r)
            | r => .error (.fault .expectingComma r)
        | r => .error (.fault .expectingColon r)
    | _ => .error (.fault .expectingName s)

end

/-! ### Whole texts -/

/-- Reads a whole text.  Between two characters that the reader consumes it
makes at most two calls, so twice the length is fuel enough. -/
def readAll (s : List Char) : Except Stop Json :=
  match s with
  | '\ufeff' :: _ => .error (.fault .byteOrderMark s)
  | _ =>
    match readValue (2 * s.length + 2) (skipBlank s) with
    | .error e => .error e
    | .ok (v, r) =>
      match skipBlank r with
      | [] => .ok v
      | r => .error (.fault .extraData r)

/-- Why a text is not read, with the place of the fault. -/
inductive ReadError where
  | fault (f : Fault) (line column offset : Nat)
  | tooManyDigits (count : Nat)
  deriving DecidableEq, Repr

/-- The fault of a text, located: lines end at a line feed and count from one,
as columns do, and the offset counts all characters before. -/
def locate (s : List Char) : Stop → ReadError
  | .tooManyDigits n => .tooManyDigits n
  | .fault f rest =>
    let before := s.take (s.length - rest.length)
    let lastLine := before.reverse.takeWhile (· != '\n')
    .fault f (before.count '\n' + 1) (lastLine.length + 1) before.length

/-- Reads JSON text. -/
def read (s : String) : Except ReadError Json :=
  (readAll s.toList).mapError (locate s.toList)

/-- The words of a fault with its place. -/
def faultText (f : Fault) (line column offset : Nat) : String :=
  s!"{f.words}: line {line} column {column} (char {offset})"

end JsonPaths.Json
