/-!
# Diagnostics

What went wrong in a body without stopping its conversion.
-/

namespace BodyText

/-- Something that went wrong. -/
inductive Diagnostic where
  /-- A line, counted from one, was no text of its charset and was decoded in the degraded way. -/
  | softConversion (line : Nat)
  /-- A tag or a quote in it was not closed; its text, cut short. -/
  | malformedTag (text : String)
  /-- A reference that stands for nothing was kept as it was written. -/
  | unresolvedReference (token : String)
  deriving DecidableEq, Repr

namespace Diagnostic

/-- How many characters of a tag a diagnostic keeps. -/
def excerptLength : Nat := 64

/-- The diagnostic of a tag with the given text. -/
def ofTag (text : List Char) : Diagnostic :=
  .malformedTag (String.ofList (text.take excerptLength))

/-- What a person is told. -/
def message : Diagnostic → String
  | softConversion line =>
    "line " ++ toString line ++ ": charset conversion failed, used fallback"
  | malformedTag text => "syntax error in tag: '" ++ text ++ "'"
  | unresolvedReference token => "unresolved entity " ++ token

end Diagnostic

end BodyText
