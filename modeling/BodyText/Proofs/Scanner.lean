import BodyText.Converter.Run
import BodyText.Proofs.Offsets

/-!
# A scanner with a cursor

The converter keeps the text that was read and not yet used. A scanner keeps all the text that was read and
a cursor in it, which counts bytes; what it looks for it looks for among the bytes, and what it found is cut
out by the number of bytes before it. That may go wrong: the cursor may not be between two characters, a
number of bytes may end within a character, the cursor may be moved by another number of bytes than the text
has that was matched, or past the end. Every move of a scanner is checked for all of these (`Buffer.pass?`,
`Scanner.turn?`), and comes to nothing where one of them happens.
-/

namespace BodyText

/-! ### The text with its cursor -/

/-- The text that was read, with a cursor. -/
structure Buffer where
  /-- The text. -/
  text : List Char := []
  /-- How many bytes of it are before the cursor. -/
  pos : Nat := 0

namespace Buffer

/-- The text behind the cursor; `none` where the cursor is not between two characters. -/
def rest? (b : Buffer) : Option (List Char) := (cutAt? b.pos b.text).map Prod.snd

/-- How many bytes are behind the cursor. -/
def remaining (b : Buffer) : Nat := byteLength b.text - b.pos

/-- Adds text at the end. -/
def append (b : Buffer) (cs : List Char) : Buffer := { b with text := b.text ++ cs }

/-- Moves the cursor to the end. -/
def skipToEnd (b : Buffer) : Buffer := { b with pos := byteLength b.text }

/-- Moves the cursor on by a number of bytes, but not past the end. -/
def advance (b : Buffer) (n : Nat) : Buffer := { b with pos := min (b.pos + n) (byteLength b.text) }

/-- Moves the cursor on over a text that was matched behind it; `none` where the number of bytes is not that
of such a text. -/
def pass? (b : Buffer) (matched : List Char → Bool) (n : Nat) : Option Buffer :=
  b.rest?.bind fun rest =>
    (cutAt? n rest).bind fun parts => if matched parts.1 then some (b.advance n) else none

section

variable {b b' : Buffer} {cs : List Char} {matched : List Char → Bool} {n : Nat}

theorem rest?_eq (h : IsRest b.text b.pos cs) : b.rest? = some cs := by
  obtain ⟨before, hcut⟩ := h.exists_cutAt?
  rw [rest?, hcut, Option.map_some]

theorem remaining_eq (h : IsRest b.text b.pos cs) : b.remaining = byteLength cs := by
  rw [remaining, ← h.add_byteLength, Nat.add_sub_cancel_left]

/-- **A checked move** of the cursor is a move over a text that was matched, by as many bytes as the text
has; the end of the text does not hold it back. -/
theorem pass?_eq_some_iff :
    b.pass? matched n = some b' ↔
      ∃ part rest, IsRest b.text b.pos (part ++ rest) ∧ byteLength part = n ∧ matched part = true ∧
        b' = { b with pos := b.pos + n } := by
  constructor
  · intro h
    obtain ⟨rest, hrest, h⟩ := Option.bind_eq_some_iff.1 h
    obtain ⟨⟨before, rest⟩, hcut, rfl⟩ := Option.map_eq_some_iff.1 hrest
    obtain ⟨htext, hpos⟩ := cutAt?_eq_some_iff.1 hcut
    obtain ⟨⟨part, rest'⟩, hpart, h⟩ := Option.bind_eq_some_iff.1 h
    obtain ⟨hsplit, hlen⟩ := cutAt?_eq_some_iff.1 hpart
    obtain ⟨hmatched, hb⟩ := Option.ite_none_right_eq_some.1 h
    cases hb
    have hplace : IsRest b.text b.pos (part ++ rest') := ⟨before, hsplit ▸ htext, hpos⟩
    have hbehind := hplace.behind.add_byteLength
    refine ⟨part, rest', hplace, hlen, hmatched, ?_⟩
    rw [advance, Nat.min_eq_left (by omega)]
  · rintro ⟨part, rest, hplace, hlen, hmatched, rfl⟩
    have hbehind := hplace.behind.add_byteLength
    rw [pass?, rest?_eq hplace, Option.bind_some, cutAt?_eq_some_iff.2 ⟨rfl, hlen⟩, Option.bind_some,
      if_pos hmatched, advance, Nat.min_eq_left (by omega)]

theorem exists_pass? (matched : List Char → Bool) (part : List Char)
    (h : IsRest b.text b.pos (part ++ cs)) (hmatched : matched part = true) (hlen : byteLength part = n) :
    ∃ b' : Buffer, b.pass? matched n = some b' ∧ IsRest b'.text b'.pos cs := by
  refine ⟨_, pass?_eq_some_iff.2 ⟨part, cs, h, hlen, hmatched, rfl⟩, ?_⟩
  rw [← hlen]
  exact h.behind

end

end Buffer

/-! ### The scanner -/

/-- A scanner. -/
structure Scanner where
  /-- Where text comes from. -/
  reader : Reader
  /-- The text that was read. -/
  buffer : Buffer := {}
  /-- Where text goes. -/
  writer : Writer

/-- Whether the markers of a block are found in either case. -/
def Block.ignoresCase : Block → Bool
  | comment => false
  | style | script => true

/-- By how many bytes the cursor is moved over what opens a block. -/
def Block.openingBytes : Block → Nat
  | comment => 4
  | style => 6
  | script => 7

namespace Scanner

/-- A scanner before its start. -/
def start (stream : Stream) (charset : Charset) (config : Config) : Scanner where
  reader := .start stream charset config.lineLimit
  writer := { rule := config.horizontalRule, latin1 := charset.isLatin1 }

/-- The scanner with nothing notable having happened and nothing written. -/
def fresh (s : Scanner) : Scanner := { s with writer := s.writer.edit .normal Layout.clear }

/-- Reads a line more; `false` at the end of the input. -/
def refill (s : Scanner) : Except ReadError Bool × Scanner :=
  match s.reader.pull with
  | (.error e, r) => (.error e, { s with reader := r })
  | (.ok none, r) => (.ok false, { s with reader := r })
  | (.ok (some line), r) =>
    (.ok true,
      { reader := r
        buffer := s.buffer.append line.text
        writer := if line.degraded then s.writer.noteDegraded r.lineNumber else s.writer })

/-- Where a scanner stands between two turns. -/
inductive Phase where
  /-- Between two items. -/
  | between
  /-- In a block; what closes it does not begin before an offset from the cursor. -/
  | closing (b : Block) (start : Nat)
  /-- In a tag; its `>` is not before an offset from the cursor. -/
  | tagEnd (start : Nat)
  /-- At a `&`. -/
  | reference

/-- What a turn comes to. -/
inductive Move where
  /-- There are more turns. -/
  | onward (p : Phase) (s : Scanner)
  /-- The call is answered. -/
  | answer (result : Except ReadError (Option Chunk)) (s : Scanner)

/-- Writes an item, which may answer the call. -/
def put (s : Scanner) (item : Item) : Move :=
  match s.writer.write item with
  | (some k, w) => .answer (.ok (some k)) { s with writer := w }
  | (none, w) => .onward .between { s with writer := w }

/-- Moves the cursor over what was matched and writes an item. -/
def take? (s : Scanner) (matched : List Char → Bool) (n : Nat) (item : Item) : Option Move :=
  (s.buffer.pass? matched n).map fun b => { s with buffer := b }.put item

/-- Goes on where no text is at hand. -/
def atEnd (s : Scanner) : Move :=
  if s.writer.layout.text.isEmpty then
    match { s with buffer := {} }.refill with
    | (.error e, s') => .answer (.error e) s'
    | (.ok true, s') => .onward .between s'
    | (.ok false, s') =>
      .answer (.ok none) { s' with writer := { s'.writer with transition := .ended } }
  else
    match s.writer.cut s.writer.link with
    | (k, w) => .answer (.ok (some k)) { s with writer := w }

/-- At a `<`: moves the cursor over what opens a block, or over the `<`. -/
def open? (s : Scanner) (rest : List Char) : Option Move :=
  match Block.all.find? fun b =>
      Bytes.startsWith b.ignoresCase (Utf8.encode b.opening) (Utf8.encode rest) with
  | some b => (s.buffer.pass? (lower · = b.opening) b.openingBytes).map fun buffer =>
      .onward (.closing b 0) { s with buffer := buffer }
  | none => (s.buffer.pass? (· = ['<']) 1).map fun buffer =>
      .onward (.tagEnd 0) { s with buffer := buffer }

/-- Moves the cursor over one blank; by the number of bytes that it has where text is preformatted, and by one
byte where it is not. -/
def takeOne? (s : Scanner) : Option Move :=
  s.buffer.rest?.bind fun rest =>
    rest.head?.bind fun c =>
      s.take? (· = [c]) (if s.writer.layout.preformatted then c.utf8Size else 1) (.blank c)

/-- At a blank: moves the cursor over a CR before LF, and then over the blank. -/
def takeBlank? (s : Scanner) (rest : List Char) : Option Move :=
  (if rest.take 2 = ['\r', '\n'] then s.buffer.pass? (· = ['\r']) 1 else some s.buffer).bind fun b =>
    { s with buffer := b }.takeOne?

/-- Reads a line more, and goes on in a phase; or does something where there is none. -/
def readOn? (s : Scanner) (p : Phase) (atEnd? : Scanner → Option Move) : Option Move :=
  match s.refill with
  | (.error e, s') => some (.answer (.error e) s')
  | (.ok true, s') => some (.onward p s')
  | (.ok false, s') => atEnd? s'

/-- In a block: looks for what closes it. -/
def seekClosing? (s : Scanner) (b : Block) (start : Nat) (rest : List Char) : Option Move :=
  match Bytes.find? b.ignoresCase (Utf8.encode b.closing) start (Utf8.encode rest) with
  | some i => s.take? (past? b.closing · = some []) (i + b.closing.length) .skipped
  | none => s.readOn? (.closing b (s.buffer.remaining - (b.closing.length - 1))) fun s' =>
      some ({ s' with buffer := s'.buffer.skipToEnd }.put .skipped)

/-- In a tag: looks for its `>`. -/
def seekTagEnd? (s : Scanner) (start : Nat) (rest : List Char) : Option Move :=
  match Bytes.find? false (Utf8.encode ['>']) start (Utf8.encode rest) with
  | some i => (slice? rest 0 i).bind fun text =>
      s.take? (splitAt? '>' · = some (text, [])) (i + 1) (.tag text)
  | none => s.readOn? (.tagEnd s.buffer.remaining) fun s' =>
      s'.buffer.rest?.map fun text => s'.put (.unclosed text)

/-- At a `&` with enough text behind it: looks for a `;` among the first bytes. -/
def takeReference? (s : Scanner) (rest : List Char) : Option Move :=
  match ((Utf8.encode rest).take Reference.maxBytes).findIdx? (· = 0x3B) with
  | some i => (slice? rest 0 (i + 1)).bind fun token =>
      s.take? (fun part => part = token ∧ splitAt? ';' part = some (token.dropLast, [])) (i + 1)
        (.reference token)
  | none => s.take? (· = ['&']) 1 (.char '&')

/-- At a `&`: reads on until it can be told what that is. -/
def seekReference? (s : Scanner) (rest : List Char) : Option Move :=
  if Reference.settled rest then s.takeReference? rest
  else s.readOn? .reference fun s' => s'.buffer.rest?.bind s'.takeReference?

/-- One turn between two items. -/
def step? (s : Scanner) : List Char → Option Move
  | [] => some s.atEnd
  | c :: cs =>
    if c = '<' then s.open? (c :: cs)
    else if c = '&' then some (.onward .reference s)
    else if isBodyBlank c then s.takeBlank? (c :: cs)
    else s.take? (· = [c]) c.utf8Size (.char c)

/-- One turn; `none` where a use of the cursor, or a number of bytes, is not sound. -/
def turn? (s : Scanner) (p : Phase) : Option Move :=
  s.buffer.rest?.bind fun rest =>
    match p with
    | .between => s.step? rest
    | .closing b start => s.seekClosing? b start rest
    | .tagEnd start => s.seekTagEnd? start rest
    | .reference => s.seekReference? rest

/-- The states of a scanner that is called again and again: in a phase of a call, or between two calls. -/
inductive Visits (stream : Stream) (charset : Charset) (config : Config) :
    Option Phase → Scanner → Prop
  | start : Visits stream charset config none (start stream charset config)
  | call {s : Scanner} : Visits stream charset config none s →
      Visits stream charset config (some .between) s.fresh
  | onward {p p' : Phase} {s s' : Scanner} : Visits stream charset config (some p) s →
      s.turn? p = some (.onward p' s') → Visits stream charset config (some p') s'
  | answer {p : Phase} {result : Except ReadError (Option Chunk)} {s s' : Scanner} :
      Visits stream charset config (some p) s → s.turn? p = some (.answer result s') →
      Visits stream charset config none s'

end Scanner

end BodyText
