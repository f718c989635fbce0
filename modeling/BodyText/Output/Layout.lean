/-!
# Layout

The text that is being written, and where in it the pen stands. The two flags on lines say what
all of the text so far ends with, also the part that was handed out before (`atLineStart`,
`afterBlankLine`); before anything is written, the pen stands after a blank line. A blank is not
written at once but makes a space pending, which goes out before the next character, so blanks
collapse and none is left at either end of a line.
-/

namespace BodyText

/-- The text being written and where its end is. -/
structure Layout where
  /-- The text that has not been handed out. -/
  text : String := ""
  /-- Whether a line end was written last, or nothing at all. -/
  atLineStart : Bool := true
  /-- Whether two line ends were written last, or nothing at all. -/
  afterBlankLine : Bool := true
  /-- Whether a space goes out before the next character. -/
  spacePending : Bool := false
  /-- Whether blanks are kept as they are. -/
  preformatted : Bool := false
  deriving DecidableEq, Repr

namespace Layout

/-- Writes a character. -/
def emit (l : Layout) (c : Char) : Layout :=
  if c = '\n' then
    { l with text := l.text.push c, atLineStart := true, afterBlankLine := l.atLineStart }
  else { l with text := l.text.push c, atLineStart := false, afterBlankLine := false }

/-- Writes the pending space. -/
def flush (l : Layout) : Layout :=
  if l.spacePending && !l.preformatted then { l with spacePending := false }.emit ' ' else l

/-- Writes a character after the pending space. -/
def push (l : Layout) (c : Char) : Layout := l.flush.emit c

/-- Writes some text after the pending space. -/
def append (l : Layout) (s : String) : Layout := s.toList.foldl emit l.flush

/-- Takes note of a blank. It does not count at the start of a line. -/
def blank (l : Layout) : Layout :=
  if !l.preformatted && !l.atLineStart then { l with spacePending := true } else l

/-- Forgets the pending space. -/
def dropSpace (l : Layout) : Layout := { l with spacePending := false }

/-- Starts a new line where the pen is not at the start of one. -/
def startLine (l : Layout) : Layout := if l.atLineStart then l else l.dropSpace.emit '\n'

/-- Leaves a blank line where there is none. -/
def leaveBlankLine (l : Layout) : Layout :=
  if l.afterBlankLine then l.dropSpace else l.dropSpace.startLine.emit '\n'

/-- Starts or ends preformatted text. -/
def setPreformatted (l : Layout) (on : Bool) : Layout :=
  { l with preformatted := on, spacePending := l.spacePending && !on }

/-- The layout after its text was handed out. -/
def clear (l : Layout) : Layout := { l with text := "" }

end Layout

end BodyText
