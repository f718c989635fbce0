import BodyText.Charset.Decoder

/-!
# UTF-8

The decoder of UTF-8. The first byte of a character fixes how many bytes follow and the range of
the next one, which excludes overlong forms, surrogates and values past U+10FFFF. A byte outside
the range ends the character begun, as one error, and is then read again as a first byte: an
error covers the longest start of a character that is there.
-/

namespace BodyText

namespace Utf8

/-- Where the decoder stands between two bytes. -/
inductive State where
  /-- Between characters. -/
  | start
  /-- Inside a character: the bits read so far, how many bytes are missing, and the least and
  the greatest byte that may come next. -/
  | inside (value missing : Nat) (low high : UInt8)
  deriving DecidableEq, Repr

/-- The bits that a byte after the first adds to those before it. -/
def extend (value : Nat) (b : UInt8) : Nat := value * 64 + b.toNat % 64

/-- Reads the first byte of a character. -/
def first (b : UInt8) : List Piece × State :=
  if b ≤ 0x7F then ([some (Char.ofNat b.toNat)], .start)
  else if b < 0xC2 then ([none], .start)
  else if b ≤ 0xDF then ([], .inside (b.toNat % 32) 1 0x80 0xBF)
  else if b = 0xE0 then ([], .inside 0 2 0xA0 0xBF)
  else if b = 0xED then ([], .inside 13 2 0x80 0x9F)
  else if b ≤ 0xEF then ([], .inside (b.toNat % 16) 2 0x80 0xBF)
  else if b = 0xF0 then ([], .inside 0 3 0x90 0xBF)
  else if b ≤ 0xF3 then ([], .inside (b.toNat % 8) 3 0x80 0xBF)
  else if b = 0xF4 then ([], .inside 4 3 0x80 0x8F)
  else ([none], .start)

/-- Reads one byte. -/
def step : State → UInt8 → List Piece × State
  | .start, b => first b
  | .inside value missing low high, b =>
    if low ≤ b ∧ b ≤ high then
      if missing ≤ 1 then ([some (Char.ofNat (extend value b))], .start)
      else ([], .inside (extend value b) (missing - 1) 0x80 0xBF)
    else (none :: (first b).1, (first b).2)

/-- A character that the end cuts off is one error. -/
def finish : State → List Piece
  | .start => []
  | .inside .. => [none]

end Utf8

/-- The decoder of UTF-8. -/
def Decoder.utf8 : Decoder where
  State := Utf8.State
  start := .start
  step := Utf8.step
  finish := Utf8.finish

end BodyText
