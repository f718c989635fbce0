/-!
# Decoders

A decoder reads bytes one at a time and answers each with pieces: characters, and errors where
the bytes are no character. One machine serves both ways to decode. The strict way refuses a
text with an error in it; the lossy way writes U+FFFD for each error. They agree on every text
that the strict way accepts (`lossy_of_strict?`).
-/

namespace BodyText

/-- A character that was read, or `none` for bytes that are no character. -/
abbrev Piece := Option Char

/-- The character that stands for bytes that could not be read. -/
def replacementChar : Char := '\uFFFD'

/-- The text of the pieces; `none` when one of them is an error. -/
def characters? (pieces : List Piece) : Option (List Char) :=
  if pieces.all Option.isSome then some (pieces.filterMap id) else none

/-- The text of the pieces with U+FFFD for each error. -/
def replaced (pieces : List Piece) : List Char :=
  pieces.map fun piece => piece.getD replacementChar

theorem replaced_of_characters? {pieces : List Piece} {cs : List Char}
    (h : characters? pieces = some cs) : replaced pieces = cs := by
  rw [characters?] at h
  split at h
  · rename_i hall
    cases h
    induction pieces with
    | nil => rfl
    | cons p ps ih =>
      cases p with
      | none => simp at hall
      | some c => simp_all [replaced]
  · cases h

/-- A machine that decodes a charset. -/
structure Decoder where
  /-- What the machine remembers between two bytes. -/
  State : Type
  /-- The state before the first byte. -/
  start : State
  /-- The pieces that one more byte settles, and the state after it. -/
  step : State → UInt8 → List Piece × State
  /-- The pieces that the end of the bytes settles. -/
  finish : State → List Piece

namespace Decoder

variable (d : Decoder)

/-- The pieces of the bytes read from a given state on. -/
def piecesFrom (s : d.State) : List UInt8 → List Piece
  | [] => d.finish s
  | b :: bs => (d.step s b).1 ++ piecesFrom (d.step s b).2 bs

/-- The pieces of the bytes. -/
def pieces (bytes : List UInt8) : List Piece := d.piecesFrom d.start bytes

/-- The text of the bytes; `none` when they hold an error. -/
def strict? (bytes : List UInt8) : Option (List Char) := characters? (d.pieces bytes)

/-- The text of the bytes with U+FFFD for each error. -/
def lossy (bytes : List UInt8) : List Char := replaced (d.pieces bytes)

theorem lossy_of_strict? {bytes : List UInt8} {cs : List Char} (h : d.strict? bytes = some cs) :
    d.lossy bytes = cs :=
  replaced_of_characters? h

end Decoder

end BodyText
