import BodyText.Charset.Basic
import BodyText.Input.Stream

/-!
# The line reader

The reader takes one line at a time, of a limited number of bytes, and decodes it. Where the
limit cuts a line inside a character, the reader holds back the last bytes, three at most, for
the line after it. A line whose bytes are no text of the charset is decoded in the degraded way.
Every line that is read shortens what remains (`Reader.remaining_of_pull`).
-/

namespace BodyText

/-! ### Decoding a line -/

/-- A line, or a piece of a long one, as it was read. -/
structure Line where
  /-- The bytes that were decoded. -/
  bytes : List UInt8
  /-- Their text. -/
  text : List Char
  /-- Whether the faithful decoding was refused. -/
  degraded : Bool
  deriving DecidableEq, Repr

namespace Charset

/-- The line that is left of some bytes when the last `held` of them wait for the next line;
`none` when nothing would be left, or when it is no text of the charset. -/
def decodeHolding? (charset : Charset) (raw : List UInt8) (held : Nat) : Option Line :=
  let kept := raw.take (raw.length - held)
  if kept.isEmpty then none
  else
    match charset.decode kept with
    | .ok text => some ⟨kept, text, false⟩
    | .error _ => none

/-- The line that some bytes make. Bytes that the limit cut off may hold back the start of a
character. -/
def decodeLine (charset : Charset) (isCut : Bool) (raw : List UInt8) : Line :=
  let holding := if isCut then [0, 1, 2, 3] else [0]
  (holding.findSome? (charset.decodeHolding? raw)).getD ⟨raw, charset.decodeLossy raw, true⟩

theorem decodeHolding?_bytes {charset : Charset} {raw : List UInt8} {held : Nat} {line : Line}
    (h : charset.decodeHolding? raw held = some line) :
    line.bytes ≠ [] ∧ line.bytes = raw.take (raw.length - held) := by
  rw [decodeHolding?] at h
  split at h
  · cases h
  · split at h
    · cases h
      simp_all
    · cases h

/-- A line holds some bytes, and they are the first ones. -/
theorem decodeLine_bytes (charset : Charset) (isCut : Bool) {raw : List UInt8} (h : raw ≠ []) :
    (charset.decodeLine isCut raw).bytes ≠ [] ∧
      (charset.decodeLine isCut raw).bytes ++
        raw.drop (charset.decodeLine isCut raw).bytes.length = raw := by
  rw [decodeLine]
  generalize hf : List.findSome? (charset.decodeHolding? raw) _ = found
  cases found with
  | none => simp [h]
  | some line =>
    obtain ⟨held, -, hl⟩ := List.exists_of_findSome?_eq_some hf
    obtain ⟨hne, hb⟩ := decodeHolding?_bytes hl
    refine ⟨hne, ?_⟩
    simp only [Option.getD_some]
    rw [hb, List.length_take, Nat.min_eq_left (Nat.sub_le ..), List.take_append_drop]

end Charset

/-! ### Reading a line -/

/-- A reader of lines. -/
structure Reader where
  /-- The input. -/
  stream : Stream
  /-- The charset of its bytes. -/
  charset : Charset
  /-- The most bytes in a line. -/
  limit : Nat
  /-- The bytes held back from the line before. -/
  carry : List UInt8 := []
  /-- How many lines have been read. -/
  lineNumber : Nat := 0

namespace Reader

/-- A reader at the start of its input; a limit of zero counts as one. -/
def start (stream : Stream) (charset : Charset) (limit : Nat) : Reader where
  stream := stream
  charset := charset
  limit := max limit 1

/-- How many bytes have not been decoded. -/
def remaining (r : Reader) : Nat := r.carry.length + r.stream.bytes.length

/-- Whether the limit ended a line, and not a line end or the end of the input. -/
def isCut (r : Reader) (raw : List UInt8) : Bool :=
  raw.length = r.limit && raw.getLast? ≠ some lineEnd

/-- Makes a line of the bytes that were held back and those that arrived; no bytes make none. -/
def settle (r : Reader) (raw : List UInt8) : Option Line × Reader :=
  if raw.isEmpty then (none, { r with carry := [] })
  else
    let line := r.charset.decodeLine (r.isCut raw) raw
    (some line,
      { r with carry := raw.drop line.bytes.length, lineNumber := r.lineNumber + 1 })

/-- Reads a line; `none` at the end of the input. A read that fails loses the bytes of the line
that had arrived, and those held back. -/
def pull (r : Reader) : Except ReadError (Option Line) × Reader :=
  match r.stream.takeLine (r.limit - r.carry.length) with
  | (.error e, s) => (.error e, { r with stream := s, carry := [] })
  | (.ok taken, s) =>
    match { r with stream := s }.settle (r.carry ++ taken) with
    | (line?, r') => (.ok line?, r')

/-! ### What remains -/

/-- A line takes at least one byte off the bytes it was made of; the rest is held back. -/
theorem remaining_of_settle {r r' : Reader} {raw : List UInt8} {line : Line}
    (h : r.settle raw = (some line, r')) :
    r'.remaining < raw.length + r.stream.bytes.length := by
  rw [settle] at h
  split at h
  · cases h
  · rename_i hne
    have hraw : raw ≠ [] := by simpa using hne
    obtain ⟨hpos, hsplit⟩ := r.charset.decodeLine_bytes (r.isCut raw) hraw
    have hlen := congrArg List.length hsplit
    have := List.length_pos_iff.2 hpos
    cases h
    simp only [List.length_append] at hlen
    simp only [remaining]
    omega

theorem remaining_of_settle_none {r r' : Reader} {raw : List UInt8}
    (h : r.settle raw = (none, r')) :
    r'.remaining = raw.length + r.stream.bytes.length := by
  rw [settle] at h
  split at h
  · cases h
    simp_all [remaining]
  · cases h

/-- What a read leaves, through the bytes that it made a line of. -/
theorem settle_of_pull {r r' : Reader} {line? : Option Line} (h : r.pull = (.ok line?, r')) :
    ∃ taken s, r.stream.bytes = taken ++ s.bytes ∧
      { r with stream := s }.settle (r.carry ++ taken) = (line?, r') := by
  rw [pull] at h
  split at h
  · cases h
  · rename_i taken s htake
    cases h
    exact ⟨taken, s, Stream.takeLine_bytes htake, rfl⟩

/-- A line takes at least one byte off what remains. -/
theorem remaining_of_pull {r r' : Reader} {line : Line} (h : r.pull = (.ok (some line), r')) :
    r'.remaining < r.remaining := by
  obtain ⟨taken, s, hbytes, hsettle⟩ := settle_of_pull h
  have := remaining_of_settle hsettle
  simp only [remaining, hbytes, List.length_append] at this ⊢
  omega

/-- The end of the input takes nothing off what remains. -/
theorem remaining_of_pull_none {r r' : Reader} (h : r.pull = (.ok none, r')) :
    r'.remaining = r.remaining := by
  obtain ⟨taken, s, hbytes, hsettle⟩ := settle_of_pull h
  have := remaining_of_settle_none hsettle
  simp only [remaining, hbytes, List.length_append] at this ⊢
  omega

end Reader

end BodyText
