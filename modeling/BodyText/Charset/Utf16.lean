import BodyText.Charset.Decoder

/-!
# UTF-16

The decoder of UTF-16 in either byte order. Two bytes make a unit; a unit is a character, or one
half of a surrogate pair. A surrogate without its partner is one error, and what the end cuts
off, half a unit or half a pair or both, is one error together.
-/

namespace BodyText

namespace Utf16

/-- The order of the two bytes of a unit. -/
inductive ByteOrder where
  /-- The low byte comes first. -/
  | little
  /-- The high byte comes first. -/
  | big
  deriving DecidableEq, Repr

/-- The unit of two bytes in the order in which they were read. -/
def ByteOrder.unit : ByteOrder → UInt8 → UInt8 → Nat
  | .little, first, second => second.toNat * 256 + first.toNat
  | .big, first, second => first.toNat * 256 + second.toNat

/-- What the decoder holds between two bytes. -/
structure State where
  /-- The first surrogate of a pair whose second has not been read. -/
  high : Option Nat := none
  /-- The first byte of a unit whose second has not been read. -/
  half : Option UInt8 := none
  deriving DecidableEq, Repr

/-- A surrogate that opens a pair. -/
def isHigh (unit : Nat) : Bool := 0xD800 ≤ unit && unit ≤ 0xDBFF

/-- A surrogate that closes a pair. -/
def isLow (unit : Nat) : Bool := 0xDC00 ≤ unit && unit ≤ 0xDFFF

/-- The character of a surrogate pair. -/
def pair (high low : Nat) : Char := Char.ofNat (0x10000 + (high - 0xD800) * 1024 + (low - 0xDC00))

/-- Reads a unit that follows no open pair. -/
def single (unit : Nat) : List Piece × Option Nat :=
  if isHigh unit then ([], some unit)
  else if isLow unit then ([none], none)
  else ([some (Char.ofNat unit)], none)

/-- Reads a unit, given the surrogate that waits for its partner. -/
def unitStep : Option Nat → Nat → List Piece × Option Nat
  | none, unit => single unit
  | some high, unit =>
    if isLow unit then ([some (pair high unit)], none)
    else (none :: (single unit).1, (single unit).2)

/-- Reads one byte. -/
def step (order : ByteOrder) (s : State) (b : UInt8) : List Piece × State :=
  match s.half with
  | none => ([], { s with half := some b })
  | some first =>
    let read := unitStep s.high (order.unit first b)
    (read.1, { high := read.2, half := none })

/-- What the end cuts off is one error. -/
def finish (s : State) : List Piece :=
  if s.high.isSome || s.half.isSome then [none] else []

end Utf16

/-- The decoder of UTF-16 in the given byte order. -/
def Decoder.utf16 (order : Utf16.ByteOrder) : Decoder where
  State := Utf16.State
  start := {}
  step := Utf16.step order
  finish := Utf16.finish

end BodyText
