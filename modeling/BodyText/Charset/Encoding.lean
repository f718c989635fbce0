import BodyText.Charset.Basic
import BodyText.Charset.CodePage
import BodyText.Charset.Utf16

/-!
# Encodings and their labels

The charsets that have a decoder here, and the labels by which mails name them. A label counts
without the white space around it and in either case of the ASCII letters.

These are not all the charsets that mails name: those of East Asia, for one, are left out. So what is
stated here of labels is about the labels of these encodings alone, and their catalogue
(`Encoding.catalogue`) is one of many; a host that knows more charsets brings its own.
-/

namespace BodyText

/-- A charset with labels that has a decoder here. -/
inductive Encoding where
  | utf8
  | windows1252
  | utf16le
  | utf16be
  /-- Stands for charsets that must not be decoded; every input is an error. -/
  | replacement
  | userDefined
  | iso8859_2
  | iso8859_15
  | iso8859_7
  | windows1251
  | koi8r
  | koi8u
  deriving DecidableEq, Repr

namespace Encoding

/-- Every one of these encodings. -/
def all : List Encoding :=
  [.utf8, .windows1252, .utf16le, .utf16be, .replacement, .userDefined, .iso8859_2, .iso8859_15,
   .iso8859_7, .windows1251, .koi8r, .koi8u]

/-- The name of an encoding. -/
def name : Encoding → String
  | .utf8 => "UTF-8"
  | .windows1252 => "windows-1252"
  | .utf16le => "UTF-16LE"
  | .utf16be => "UTF-16BE"
  | .replacement => "replacement"
  | .userDefined => "x-user-defined"
  | .iso8859_2 => "ISO-8859-2"
  | .iso8859_15 => "ISO-8859-15"
  | .iso8859_7 => "ISO-8859-7"
  | .windows1251 => "windows-1251"
  | .koi8r => "KOI8-R"
  | .koi8u => "KOI8-U"

/-- The labels of an encoding, in lower case. -/
def labels : Encoding → List String
  | .utf8 =>
    ["utf8", "utf-8", "unicode20utf8", "unicode11utf8", "x-unicode20utf8", "unicode-1-1-utf-8"]
  | .windows1252 =>
    ["l1", "cp819", "ascii", "latin1", "cp1252", "ibm819", "iso88591", "x-cp1252", "us-ascii",
     "iso8859-1", "iso-ir-100", "iso-8859-1", "iso_8859-1", "csisolatin1", "windows-1252",
     "ansi_x3.4-1968", "iso_8859-1:1987"]
  | .utf16le =>
    ["ucs-2", "utf-16", "unicode", "utf-16le", "csunicode", "unicodefeff", "iso-10646-ucs-2"]
  | .utf16be => ["utf-16be", "unicodefffe"]
  | .replacement =>
    ["hz-gb-2312", "iso-2022-cn", "iso-2022-kr", "csiso2022kr", "replacement", "iso-2022-cn-ext"]
  | .userDefined => ["x-user-defined"]
  | .iso8859_2 =>
    ["l2", "latin2", "iso88592", "iso8859-2", "iso-ir-101", "iso-8859-2", "iso_8859-2",
     "csisolatin2", "iso_8859-2:1987"]
  | .iso8859_15 =>
    ["l9", "iso885915", "iso8859-15", "iso-8859-15", "iso_8859-15", "csisolatin9"]
  | .iso8859_7 =>
    ["greek", "greek8", "iso88597", "ecma-118", "elot_928", "iso8859-7", "iso-ir-126",
     "iso-8859-7", "iso_8859-7", "sun_eu_greek", "iso_8859-7:1987", "csisolatingreek"]
  | .windows1251 => ["cp1251", "x-cp1251", "windows-1251"]
  | .koi8r => ["koi", "koi8", "koi8-r", "koi8_r", "cskoi8r"]
  | .koi8u => ["koi8-u", "koi8-ru"]

/-- A label as it is compared: trimmed and in lower case. -/
def normalLabel (label : String) : String :=
  String.ofList ((trimBy isSpace label.toList).map Char.toLower)

/-- The one of these encodings that has the given label. -/
def ofLabel? (label : String) : Option Encoding :=
  all.find? fun e => e.labels.contains (normalLabel label)

/-- The one of these encodings that has the given label; UTF-8 when none has it. -/
def ofLabelOrUtf8 (label : String) : Encoding := (ofLabel? label).getD .utf8

end Encoding

/-- The decoder of the charsets that must not be decoded: input of any length is one error. -/
def Decoder.refusing : Decoder where
  State := Bool
  start := false
  step := fun seen _ => (if seen then [] else [none], true)
  finish := fun _ => []

namespace Encoding

/-- The decoder of an encoding. -/
def decoder : Encoding → Decoder
  | .utf8 => .utf8
  | .windows1252 => .ofCodePage .windows1252
  | .utf16le => .utf16 .little
  | .utf16be => .utf16 .big
  | .replacement => .refusing
  | .userDefined => .ofCodePage .privateUse
  | .iso8859_2 => .ofCodePage .iso8859_2
  | .iso8859_15 => .ofCodePage .iso8859_15
  | .iso8859_7 => .ofCodePage .iso8859_7
  | .windows1251 => .ofCodePage .windows1251
  | .koi8r => .ofCodePage .koi8r
  | .koi8u => .ofCodePage .koi8u

/-- An encoding as a charset. Windows-1252 extends ISO-8859-1 and is the only one to count as it. -/
def charset (e : Encoding) : Charset := .ofDecoder e.name e.decoder (e == .windows1252)

/-- The catalogue of these encodings, which knows no other charsets. -/
def catalogue : Catalogue where
  find? label := (ofLabel? label).map charset

end Encoding

end BodyText
