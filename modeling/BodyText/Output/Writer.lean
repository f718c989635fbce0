import BodyText.Markup.Action
import BodyText.Markup.Item
import BodyText.Markup.Tag
import BodyText.Output.Diagnostic
import BodyText.Output.Layout

/-!
# The writer

The writer turns items into text. It knows the link that is open, remembers the last notable
thing that happened, and keeps the first diagnostics. Its text is handed out in chunks, each
with the link that was open for it; a link that opens or closes ends a chunk.
-/

namespace BodyText

/-- The last notable thing that happened in a conversion. -/
inductive Transition where
  /-- Nothing notable. -/
  | normal
  /-- The input ended. -/
  | ended
  /-- A line was decoded in the degraded way. -/
  | degraded
  /-- A tag was read that says nothing more. -/
  | unknown
  /-- A link opened. -/
  | linkOpened
  /-- A link closed. -/
  | linkClosed
  /-- A paragraph started. -/
  | paragraph
  /-- Preformatted text started. -/
  | preformatted
  /-- A line was broken. -/
  | lineBreak
  /-- A rule was drawn. -/
  | rule
  deriving DecidableEq, Repr

/-- A piece of the text. -/
structure Chunk where
  /-- The text. -/
  text : String
  /-- The target of the link that was open for it. -/
  link : Option String
  /-- The last notable thing that happened in it. -/
  transition : Transition
  deriving DecidableEq, Repr

namespace Chunk

/-- The chunk ended because a link opened. -/
def opensLink (k : Chunk) : Bool := k.transition = .linkOpened

/-- The chunk ended because a link closed. -/
def closesLink (k : Chunk) : Bool := k.transition = .linkClosed

end Chunk

/-! ### The writer -/

/-- What turns items into text. -/
structure Writer where
  /-- The text being written. -/
  layout : Layout := {}
  /-- The target of the open link. -/
  link : Option String := none
  /-- The last notable thing that happened. -/
  transition : Transition := .normal
  /-- The diagnostics, the oldest first. -/
  diagnostics : List Diagnostic := []
  /-- The text of a horizontal rule. -/
  rule : String
  /-- Whether the body is in ISO-8859-1. -/
  latin1 : Bool
  deriving DecidableEq, Repr

namespace Writer

/-- How many diagnostics are kept. -/
def maxDiagnostics : Nat := 256

/-- Keeps a diagnostic while there is room. -/
def report (w : Writer) (d : Diagnostic) : Writer :=
  if w.diagnostics.length < maxDiagnostics then { w with diagnostics := w.diagnostics ++ [d] }
  else w

/-- Notes that a line was decoded in the degraded way. -/
def noteDegraded (w : Writer) (line : Nat) : Writer :=
  { w with transition := .degraded }.report (.softConversion line)

/-- Changes the text, and notes why. -/
def edit (w : Writer) (transition : Transition) (f : Layout → Layout) : Writer :=
  { w with layout := f w.layout, transition := transition }

/-- Hands the text out as a chunk with the given link. -/
def cut (w : Writer) (link : Option String) : Chunk × Writer :=
  (⟨w.layout.text, link, w.transition⟩, { w with layout := w.layout.clear })

/-- Writes a blank: as it is in preformatted text, and as a pending space elsewhere. -/
def writeBlank (w : Writer) (c : Char) : Writer :=
  { w with layout := if w.layout.preformatted then w.layout.push c else w.layout.blank }

/-- Writes a reference: the text that it becomes, or itself. -/
def writeReference (w : Writer) (token : List Char) : Writer :=
  match Reference.resolve? w.latin1 token with
  | some text => { w with layout := w.layout.append text }
  | none =>
    { w with layout := w.layout.append (String.ofList token) }.report
      (.unresolvedReference (String.ofList token))

/-- Does what a tag does. A link that opens or closes ends the chunk before it. -/
def perform (w : Writer) (tag : Tag) : Action → Option Chunk × Writer
  | .breakLine => (none, w.edit .lineBreak fun l => l.dropSpace.push '\n')
  | .openLink =>
    match tag.value? "href" with
    | none => (none, w)
    | some target =>
      match { w with transition := .linkOpened, link := some target }.cut w.link with
      | (k, w') => (some k, w')
  | .closeLink =>
    match { w with transition := .linkClosed, link := none }.cut w.link with
    | (k, w') => (some k, w')
  | .startParagraph => (none, w.edit .paragraph Layout.leaveBlankLine)
  | .openPreformatted => (none, w.edit .preformatted (·.setPreformatted true))
  | .closePreformatted => (none, w.edit .normal (·.setPreformatted false))
  | .drawRule => (none, w.edit .rule fun l => (l.startLine.append w.rule).push '\n')
  | .startLine => (none, w.edit .normal Layout.startLine)
  | .leaveBlankLine => (none, w.edit .normal Layout.leaveBlankLine)

/-- Does what the tag of a name does, when it does something. -/
def writeTag (w : Writer) (tag : Tag) : Option Chunk × Writer :=
  match Action.ofName? tag.name with
  | some action => w.perform tag action
  | none => (none, w)

/-- Notes that markup was read, whatever it may do. -/
def noteMarkup (w : Writer) : Writer := { w with transition := .unknown }

/-- Writes an item, and hands out the chunk that it ends. -/
def write (w : Writer) : Item → Option Chunk × Writer
  | .char c => (none, { w with layout := w.layout.push c })
  | .blank c => (none, w.writeBlank c)
  | .reference token => (none, w.writeReference token)
  | .skipped => (none, w.noteMarkup)
  | .tag text =>
    match Tag.read text with
    | .nothing => (none, w.noteMarkup)
    | .complete tag => w.noteMarkup.writeTag tag
    | .unclosed tag => (w.noteMarkup.report (.ofTag text)).writeTag tag
  | .unclosed text => (none, w.noteMarkup.report (.ofTag text))

end Writer

end BodyText
