import BodyText.Converter.Read

/-!
# Running a converter

A converter hands out its text chunk by chunk. A chunk ends where the text at hand does, and where
a link opens or closes; only the latter may be empty. Each chunk uses something of the input up
(`precedes_of_next`), so every conversion ends.
-/

namespace BodyText

namespace Converter

/-! ### One step -/

/-- What one step of a converter comes to. -/
inductive Turn where
  /-- There is more to do for the next chunk. -/
  | more
  /-- A chunk is there. -/
  | chunk (k : Chunk)
  /-- The input is at its end. -/
  | ended
  deriving DecidableEq, Repr

/-- Writes an item, which may end a chunk. -/
def writeItem (c : Converter) (item : Item) : Turn × Converter :=
  match c.writer.write item with
  | (some k, w) => (.chunk k, { c with writer := w })
  | (none, w) => (.more, { c with writer := w })

/-- Hands out the text that was written. -/
def cut (c : Converter) : Chunk × Converter :=
  match c.writer.cut c.writer.link with
  | (k, w) => (k, { c with writer := w })

/-- Notes that the input ended. -/
def noteEnd (c : Converter) : Converter :=
  { c with writer := { c.writer with transition := .ended } }

/-- Goes on when no text is at hand: hands out what was written, or reads a line more. -/
def stepAtEnd (c : Converter) : Except ReadError Turn × Converter :=
  if c.writer.layout.text.isEmpty then
    match c.refill with
    | (.error e, c') => (.error e, c')
    | (.ok true, c') => (.ok .more, c')
    | (.ok false, c') => (.ok .ended, c'.noteEnd)
  else (.ok (.chunk c.cut.1), c.cut.2)

/-- Goes on by one item, or by one line where no text is at hand. -/
def step (c : Converter) : Except ReadError Turn × Converter :=
  match Head.of? c.unread with
  | none => c.stepAtEnd
  | some head =>
    match c.readItem head with
    | (.error e, c') => (.error e, c')
    | (.ok item, c') =>
      match c'.writeItem item with
      | (turn, c'') => (.ok turn, c'')

/-- Writing changes neither the text at hand nor what may be read. -/
theorem writeItem_reader {c c' : Converter} {item : Item} {turn : Turn}
    (h : c.writeItem item = (turn, c')) : c'.reader = c.reader ∧ c'.unread = c.unread := by
  rw [writeItem] at h
  split at h <;> cases h <;> exact ⟨rfl, rfl⟩

/-- A step uses something up, unless the input is at its end or the text that was written is
handed out. -/
theorem step_cases {c c' : Converter} {turn : Turn} (h : c.step = (.ok turn, c')) :
    Precedes c' c ∨
      c'.size = c.size ∧ (turn = .ended ∨ turn = .chunk c.cut.1 ∧ c.writer.layout.text ≠ "") := by
  rw [step] at h
  split at h
  · rw [stepAtEnd] at h
    split at h
    · split at h
      · cases h
      · rename_i hrefill
        cases h
        exact .inl (.inl (remaining_of_refill hrefill))
      · rename_i d hrefill
        cases h
        rcases follows_of_refill hrefill with hlt | ⟨hr, hu⟩
        · exact .inl (.inl hlt)
        · exact .inr ⟨Prod.ext hr (congrArg List.length hu), .inl rfl⟩
    · rename_i htext
      cases h
      exact .inr ⟨rfl, .inr ⟨rfl, fun hnil => htext (by simp [hnil])⟩⟩
  · rename_i head hhead
    split at h
    · cases h
    · rename_i item d hitem
      split at h
      rename_i turn' d' hwrite
      cases h
      obtain ⟨hr, hu⟩ := writeItem_reader hwrite
      have := precedes_of_readItem hhead hitem
      exact .inl (by rw [Precedes, hr, hu]; exact this)

theorem precedes_of_step_more {c c' : Converter} (h : c.step = (.ok .more, c')) :
    Precedes c' c := by
  rcases step_cases h with hp | ⟨-, hturn | ⟨hturn, -⟩⟩
  · exact hp
  · cases hturn
  · cases hturn

/-! ### The next chunk -/

/-- Steps until a chunk is there or the input is at its end. -/
def advance (c : Converter) : Except ReadError (Option Chunk) × Converter :=
  match known c.step with
  | ⟨(.error e, c'), _⟩ => (.error e, c')
  | ⟨(.ok (.chunk k), c'), _⟩ => (.ok (some k), c')
  | ⟨(.ok .ended, c'), _⟩ => (.ok none, c')
  | ⟨(.ok .more, c'), _⟩ => c'.advance
termination_by c.size
decreasing_by exact (precedes_of_step_more ‹_›).lex

/-- What comes of a converter, by what comes of one step. -/
theorem advance_eq (c : Converter) :
    c.advance =
      match c.step with
      | (.error e, c') => (.error e, c')
      | (.ok (.chunk k), c') => (.ok (some k), c')
      | (.ok .ended, c') => (.ok none, c')
      | (.ok .more, c') => c'.advance := by
  rw [advance]
  split <;> rename_i hd _ <;> rw [hd]

/-- The converter with nothing notable having happened and nothing written. -/
def fresh (c : Converter) : Converter :=
  { c with writer := c.writer.edit .normal Layout.clear }

/-- The next chunk; `none` at the end of the input. Text that was written before a failure is
lost. -/
def next (c : Converter) : Except ReadError (Option Chunk) × Converter := c.fresh.advance

/-- What used something up after something was used up has used something up. -/
theorem Precedes.trans {a b c : Converter} (hab : Precedes a b) (hbc : Precedes b c) :
    Precedes a c := by
  rcases hab with h | ⟨h, h'⟩ <;> rcases hbc with h2 | ⟨h2, h2'⟩
  · exact .inl (by omega)
  · exact .inl (by omega)
  · exact .inl (by omega)
  · exact .inr ⟨by omega, by omega⟩

/-- Steps that come to a chunk use something up, unless there was text to hand out. -/
theorem precedes_of_advance {c c' : Converter} {k : Chunk}
    (h : c.advance = (.ok (some k), c')) :
    Precedes c' c ∨ c'.size = c.size ∧ c.writer.layout.text ≠ "" := by
  fun_induction advance c with
  | case1 => cases h
  | case2 c k' d hd =>
    cases h
    rcases step_cases hd with hp | ⟨hsize, hturn | ⟨-, htext⟩⟩
    · exact .inl hp
    · cases hturn
    · exact .inr ⟨hsize, htext⟩
  | case3 => cases h
  | case4 c d hd _ ih =>
    have hp := precedes_of_step_more hd
    rcases ih h with hp' | ⟨hsize, -⟩
    · exact .inl (hp'.trans hp)
    · refine .inl ?_
      rw [size, size, Prod.mk.injEq] at hsize
      rw [Precedes, hsize.1, hsize.2]
      exact hp

/-- A chunk uses something up. -/
theorem precedes_of_next {c c' : Converter} {k : Chunk} (h : c.next = (.ok (some k), c')) :
    Precedes c' c := by
  rcases precedes_of_advance h with hp | ⟨-, htext⟩
  · exact hp
  · exact absurd rfl htext

/-! ### A whole conversion -/

/-- A conversion from beginning to end. -/
structure Run where
  /-- The chunks, each with the converter that it left behind. -/
  chunks : List (Chunk × Converter)
  /-- The failure that ended the conversion early. -/
  failure : Option ReadError
  /-- The converter at the end. -/
  final : Converter

/-- Takes chunks until there are no more or a read fails. -/
def run (c : Converter) : Run :=
  match known c.next with
  | ⟨(.error e, c'), _⟩ => ⟨[], some e, c'⟩
  | ⟨(.ok none, c'), _⟩ => ⟨[], none, c'⟩
  | ⟨(.ok (some k), c'), _⟩ =>
    let later := c'.run
    { later with chunks := (k, c') :: later.chunks }
termination_by c.size
decreasing_by exact (precedes_of_next ‹_›).lex

/-- What a conversion comes to, by its next chunk. -/
theorem run_eq (c : Converter) :
    c.run =
      match c.next with
      | (.error e, c') => ⟨[], some e, c'⟩
      | (.ok none, c') => ⟨[], none, c'⟩
      | (.ok (some k), c') => { c'.run with chunks := (k, c') :: c'.run.chunks } := by
  rw [run]
  split <;> rename_i hd _ <;> rw [hd]

/-- The text of the chunks. -/
def Run.text (r : Run) : String := String.join (r.chunks.map fun k => k.1.text)

end Converter

/-- The plain text of a body. Where its links lead is left out. -/
def plainText (stream : Stream) (charset : Charset) (config : Config) : Except ReadError String :=
  let r := (Converter.start stream charset config).run
  match r.failure with
  | some e => .error e
  | none => .ok r.text

end BodyText
