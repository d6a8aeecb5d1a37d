/-
JsonPaths/Text/Utf8.lean

UTF-8.

`decode` reads bytes as text.  It stops at the first byte that cannot continue
a well-formed sequence, and reports the bytes of the sequence that were read.
-/

namespace JsonPaths.Text.Utf8

/-- The bytes of a text. -/
def encode (s : List Char) : List UInt8 := s.flatMap String.utf8EncodeChar

/-! ### Faults -/

/-- What is wrong with bytes that are not UTF-8. -/
inductive Flaw where
  | invalidStart
  | invalidContinuation
  | unexpectedEnd
  deriving DecidableEq, Repr

/-- A flaw with the bytes it concerns, from `start` up to but without `stop`;
`byte` is the first of them. -/
structure Fault where
  flaw : Flaw
  byte : UInt8
  start : Nat
  stop : Nat
  deriving DecidableEq, Repr

/-- The words of a flaw. -/
def Flaw.words : Flaw → String
  | .invalidStart => "invalid start byte"
  | .invalidContinuation => "invalid continuation byte"
  | .unexpectedEnd => "unexpected end of data"

/-! ### Decoding -/

/-- The bits that the first byte of a sequence contributes, and the range of
each byte that has to follow. -/
def lead (b : Nat) : Option (Nat × List (Nat × Nat)) :=
  let tail := (0x80, 0xbf)
  if b < 0x80 then some (b, [])
  else if b < 0xc2 then none
  else if b < 0xe0 then some (b - 0xc0, [tail])
  else if b = 0xe0 then some (b - 0xe0, [(0xa0, 0xbf), tail])
  else if b = 0xed then some (b - 0xe0, [(0x80, 0x9f), tail])
  else if b < 0xf0 then some (b - 0xe0, [tail, tail])
  else if b = 0xf0 then some (b - 0xf0, [(0x90, 0xbf), tail, tail])
  else if b < 0xf4 then some (b - 0xf0, [tail, tail, tail])
  else if b = 0xf4 then some (b - 0xf0, [(0x80, 0x8f), tail, tail])
  else none

/-- A sequence that has been begun: its first byte and the place of that, the
bits so far, and the ranges of the bytes that have to follow. -/
structure Open where
  byte : UInt8
  start : Nat
  bits : Nat
  ranges : List (Nat × Nat)

/-- Reads bytes from place `pos` on, within the sequence `cur` if there is one.
The characters before are in `done`, in reverse. -/
def decodeFrom (pos : Nat) (cur : Option Open) (done : List Char) :
    List UInt8 → Except Fault (List Char)
  | [] =>
    match cur with
    | none => .ok done.reverse
    | some o => .error ⟨.unexpectedEnd, o.byte, o.start, pos⟩
  | b :: r =>
    match cur with
    | none =>
      match lead b.toNat with
      | none => .error ⟨.invalidStart, b, pos, pos + 1⟩
      | some (bits, []) => decodeFrom (pos + 1) none (Char.ofNat bits :: done) r
      | some (bits, ranges) => decodeFrom (pos + 1) (some ⟨b, pos, bits, ranges⟩) done r
    | some o =>
      match o.ranges with
      | [] => .error ⟨.invalidStart, b, pos, pos + 1⟩
      | (low, high) :: more =>
        if low ≤ b.toNat ∧ b.toNat ≤ high then
          let bits := o.bits * 64 + (b.toNat - 0x80)
          if more.isEmpty then decodeFrom (pos + 1) none (Char.ofNat bits :: done) r
          else decodeFrom (pos + 1) (some ⟨o.byte, o.start, bits, more⟩) done r
        else .error ⟨.invalidContinuation, o.byte, o.start, pos⟩

/-- The text that bytes spell. -/
def decode (bytes : List UInt8) : Except Fault (List Char) := decodeFrom 0 none [] bytes

end JsonPaths.Text.Utf8
