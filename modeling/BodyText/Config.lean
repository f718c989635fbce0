/-!
# Settings

What a conversion is told besides its input: how much of a line is read at once, and what a
horizontal rule looks like.
-/

namespace BodyText

/-- The settings of one conversion. -/
structure Config where
  /-- The most bytes that are read as one line; a longer line is read in pieces. -/
  lineLimit : Nat := 8192
  /-- The text of a horizontal rule; a line end follows it. -/
  horizontalRule : String := String.ofList (List.replicate 48 '-')
  deriving DecidableEq, Repr

namespace Config

/-- The settings with another line limit; a limit of zero counts as one. -/
def withLineLimit (config : Config) (limit : Nat) : Config :=
  { config with lineLimit := max limit 1 }

/-- The settings with another horizontal rule. -/
def withHorizontalRule (config : Config) (rule : String) : Config :=
  { config with horizontalRule := rule }

end Config

end BodyText
