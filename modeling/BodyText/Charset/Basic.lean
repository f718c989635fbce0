import BodyText.Charset.Utf8
import BodyText.Text.Blank

/-!
# Charsets

What a conversion needs to know of the charset of its input: a faithful decoding that may refuse,
a degraded one that never does, and whether numeric references from 128 to 255 name Latin-1
characters. A host may supply a charset of its own.

Mails name their charsets by labels. Which charset a label names is for a catalogue to know
(`Catalogue`). Nothing is assumed of a catalogue: what is stated of labels holds for every one.
-/

namespace BodyText

/-- A faithful decoding was refused. -/
structure DecodeError where
  /-- What a person is told about it. -/
  message : String
  deriving DecidableEq, Repr

/-- A charset, as the two decodings of its bytes. -/
structure Charset where
  /-- The faithful decoding, refused where the bytes are no text of the charset. -/
  decode : List UInt8 → Except DecodeError (List Char)
  /-- The degraded decoding that is used after a refusal. -/
  decodeLossy : List UInt8 → List Char := Decoder.utf8.lossy
  /-- Whether the charset is ISO-8859-1. -/
  isLatin1 : Bool := false

/-- The charset that a decoder decodes; its refusals carry the charset's name. -/
def Charset.ofDecoder (name : String) (d : Decoder) (isLatin1 : Bool) : Charset where
  decode bytes :=
    match d.strict? bytes with
    | some cs => .ok cs
    | none => .error ⟨"invalid " ++ name ++ " input"⟩
  decodeLossy := d.lossy
  isLatin1 := isLatin1

/-- UTF-8. -/
def Charset.utf8 : Charset := .ofDecoder "UTF-8" .utf8 false

/-! ### Labels -/

/-- What looks up the charset that a label names. There are far more charsets than decoders here, so a
catalogue is a thing of its own, that whoever converts brings along. -/
structure Catalogue where
  /-- The charset that a label names, from the label without white space around it; `none` for a label
  that is not known. -/
  find? : String → Option Charset

namespace Catalogue

/-- The charset that a label names; white space around the label does not count. -/
def ofLabel? (known : Catalogue) (label : String) : Option Charset :=
  known.find? (String.ofList (trimBy isSpace label.toList))

/-- The charset that a label names; UTF-8 when the label is not known. -/
def ofLabelOrUtf8 (known : Catalogue) (label : String) : Charset :=
  (known.ofLabel? label).getD .utf8

end Catalogue

end BodyText
