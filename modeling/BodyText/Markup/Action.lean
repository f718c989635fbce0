/-!
# What tags do

The tags that a plain text shows something of, by what they do to it. All other tags leave no
trace but the space that they take in the markup.
-/

namespace BodyText

/-- What a tag does to the text. -/
inductive Action where
  /-- Ends the line. -/
  | breakLine
  /-- Opens a link, when the tag says where to. -/
  | openLink
  /-- Closes the link. -/
  | closeLink
  /-- Starts a paragraph after a blank line. -/
  | startParagraph
  /-- Starts preformatted text. -/
  | openPreformatted
  /-- Ends preformatted text. -/
  | closePreformatted
  /-- Draws a rule on a line of its own. -/
  | drawRule
  /-- Starts a new line. -/
  | startLine
  /-- Leaves a blank line. -/
  | leaveBlankLine
  deriving DecidableEq, Repr

namespace Action

/-- The tags known by their whole name. -/
def table : List (String × Action) :=
  [("br", .breakLine), ("a", .openLink), ("/a", .closeLink), ("p", .startParagraph),
   ("pre", .openPreformatted), ("/pre", .closePreformatted), ("hr", .drawRule),
   ("div", .startLine), ("ul", .startLine), ("li", .startLine), ("table", .startLine),
   ("tr", .startLine), ("/table", .leaveBlankLine), ("/div", .startLine), ("/ul", .startLine),
   ("/li", .startLine)]

/-- The tags known by the start of their name: headings, `h` and a digit. -/
def ofHeading? : List Char → Option Action
  | 'h' :: d :: _ => if d.isDigit then some .startLine else none
  | '/' :: 'h' :: d :: _ => if d.isDigit then some .leaveBlankLine else none
  | _ => none

/-- What the tag of a name, in lower case, does; `none` when it does nothing. -/
def ofName? (name : String) : Option Action :=
  (table.lookup name).or (ofHeading? name.toList)

end Action

end BodyText
