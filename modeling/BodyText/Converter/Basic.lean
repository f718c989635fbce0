import BodyText.Config
import BodyText.Input.Reader
import BodyText.Output.Writer

/-!
# The converter

A converter joins a reader, the text that was read and not yet used, and a writer. Reading a line
more adds its text to the text at hand, or uses nothing up at the end of the input. A read that
fails leaves the converter as far as it got, to be asked again.
-/

namespace BodyText

/-- A conversion under way. -/
structure Converter where
  /-- Where text comes from. -/
  reader : Reader
  /-- The text that was read and not yet used. -/
  unread : List Char := []
  /-- Where text goes. -/
  writer : Writer

namespace Converter

/-- The conversion of a body before its start. -/
def start (stream : Stream) (charset : Charset) (config : Config) : Converter where
  reader := .start stream charset config.lineLimit
  writer := { rule := config.horizontalRule, latin1 := charset.isLatin1 }

/-- The converter with another text at hand. -/
def withUnread (c : Converter) (cs : List Char) : Converter := { c with unread := cs }

/-- Reads a line more; `false` at the end of the input. -/
def refill (c : Converter) : Except ReadError Bool × Converter :=
  match c.reader.pull with
  | (.error e, r) => (.error e, { c with reader := r })
  | (.ok none, r) => (.ok false, { c with reader := r })
  | (.ok (some line), r) =>
    (.ok true,
      { reader := r
        unread := c.unread ++ line.text
        writer := if line.degraded then c.writer.noteDegraded r.lineNumber else c.writer })

/-- A line is added to the text at hand, whatever that is. -/
theorem refill_withUnread (c : Converter) (cs : List Char) :
    (c.withUnread cs).refill =
      ((c.withUnread []).refill.1,
        (c.withUnread []).refill.2.withUnread (cs ++ (c.withUnread []).refill.2.unread)) := by
  simp only [refill, withUnread]
  split <;> simp

/-- Where no line is read, the text at hand stays. -/
theorem unread_of_refill {c c' : Converter} {r : Except ReadError Bool}
    (h : c.refill = (r, c')) (hr : r ≠ .ok true) : c'.unread = c.unread := by
  rw [refill] at h
  split at h <;> cases h
  · rfl
  · rfl
  · exact absurd rfl hr

/-! ### Using something up -/

/-- How much has not been used: bytes first, then characters at hand. -/
def size (c : Converter) : Nat × Nat := (c.reader.remaining, c.unread.length)

/-- A converter that used up something that another one had. -/
def Precedes (c' c : Converter) : Prop :=
  c'.reader.remaining < c.reader.remaining ∨
    c'.reader.remaining = c.reader.remaining ∧ c'.unread.length < c.unread.length

/-- A converter that used up nothing but what it read. -/
def Follows (c' c : Converter) : Prop :=
  c'.reader.remaining < c.reader.remaining ∨
    c'.reader.remaining = c.reader.remaining ∧ c'.unread = c.unread

theorem Follows.refl (c : Converter) : Follows c c := .inr ⟨rfl, rfl⟩

theorem Precedes.lex {c' c : Converter} (h : Precedes c' c) :
    Prod.Lex (· < ·) (· < ·) c'.size c.size :=
  Prod.lex_def.2 h

theorem remaining_of_refill {c c' : Converter} (h : c.refill = (.ok true, c')) :
    c'.reader.remaining < c.reader.remaining := by
  rw [refill] at h
  split at h
  · cases h
  · cases h
  · rename_i hpull
    cases h
    exact Reader.remaining_of_pull hpull

theorem follows_of_refill {c c' : Converter} {b : Bool} (h : c.refill = (.ok b, c')) :
    Follows c' c := by
  rw [refill] at h
  split at h
  · cases h
  · rename_i hpull
    cases h
    exact .inr ⟨Reader.remaining_of_pull_none hpull, rfl⟩
  · rename_i hpull
    cases h
    exact .inl (Reader.remaining_of_pull hpull)

end Converter

end BodyText
