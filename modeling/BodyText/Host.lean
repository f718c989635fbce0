import BodyText.Charset.Encoding
import BodyText.Converter.Run

/-!
# Host calls

What a mail program in another language sees of this library: whole bodies in, text out, and a
last error to ask for. A text that crosses to the host holds no NUL, since NUL ends the host's
strings; a space stands in its place.

The host names the charset of a body by a label. Which charsets are known by their labels is up to the
catalogue that the calls are answered with.
-/

namespace BodyText

namespace Host

/-- The version of the library. -/
def version : String := "0.1.0"

/-! ### Requests -/

/-- A body to convert, as a host hands it over. -/
structure Request where
  /-- The bytes; `none` when the host points nowhere. -/
  bytes : Option (List UInt8)
  /-- How many of the bytes belong to the body. -/
  length : Nat
  /-- The bytes of the charset's label, which the first NUL ends; `none` for UTF-8. -/
  label : Option (List UInt8)
  deriving DecidableEq, Repr

namespace Request

/-- The body. A host that points nowhere may still mean the empty body. -/
def body? (r : Request) : Option (List UInt8) :=
  match r.bytes with
  | some bytes => some (bytes.take r.length)
  | none => if r.length = 0 then some [] else none

/-- The label of the body's charset, when it has one and it is a text. -/
def label? (r : Request) : Option String :=
  r.label.bind fun bytes =>
    (Decoder.utf8.strict? (bytes.takeWhile (· ≠ 0))).map String.ofList

/-- The charset of the body. A label that is missing, no text or not known means UTF-8. -/
def charset (r : Request) (known : Catalogue) : Charset :=
  match r.label? with
  | some label => known.ofLabelOrUtf8 label
  | none => .utf8

/-- The conversion of a body before its start. -/
def converter (r : Request) (known : Catalogue) (body : List UInt8) : Converter :=
  .start [.segment body] (r.charset known) {}

end Request

/-- Why a call failed. -/
inductive Failure where
  /-- The host points nowhere for a body that is not empty. -/
  | missingBody
  /-- The body could not be read. -/
  | read (e : ReadError)
  deriving DecidableEq, Repr

/-- What the host is told. -/
def Failure.message : Failure → String
  | missingBody => "data is null"
  | read e => e.message

/-- A text that may cross to the host. -/
def withoutNul (s : String) : String :=
  String.ofList (s.toList.map fun c => if c = '\x00' then ' ' else c)

/-! ### Calls -/

/-- A call of the host. -/
inductive Call where
  /-- Asks for the version. -/
  | version
  /-- Asks for the last error. -/
  | lastError
  /-- Gives back a text, or nothing; no account is kept of either. -/
  | release
  /-- Asks for the text of a body. -/
  | text (request : Request)
  /-- Asks for the text of a body piece by piece. -/
  | chunks (request : Request)
  deriving DecidableEq, Repr

/-- The reply to a call. -/
inductive Reply where
  /-- A text, or none. -/
  | text (s : Option String)
  /-- Whether all went well, and the pieces of text that are not empty, with their links. -/
  | chunks (ok : Bool) (pieces : List (String × Option String))
  deriving DecidableEq, Repr

/-- The conversion that a request asks for. -/
def Request.run? (r : Request) (known : Catalogue) : Option Converter.Run :=
  r.body?.map fun body => (r.converter known body).run

/-- Why a conversion failed, if it did. -/
def failure? : Option Converter.Run → Option Failure
  | none => some .missingBody
  | some run => run.failure.map Failure.read

/-- The pieces of text that a conversion delivers to the host. -/
def delivered (run : Converter.Run) : List (String × Option String) :=
  (run.chunks.filter fun k => k.1.text ≠ "").map fun k =>
    (withoutNul k.1.text, k.1.link.map withoutNul)

/-- The reply to a call, and the last error after it; a call that converts forgets the one
before. -/
def Call.reply (known : Catalogue) (lastError : Option Failure) : Call → Reply × Option Failure
  | .version => (.text (some Host.version), lastError)
  | .lastError => (.text (lastError.map Failure.message), lastError)
  | .release => (.text none, lastError)
  | .text r =>
    let run := r.run? known
    match failure? run with
    | some e => (.text none, some e)
    | none => (.text (run.map fun run => withoutNul run.text), none)
  | .chunks r =>
    let run := r.run? known
    (.chunks (failure? run).isNone ((run.map delivered).getD []), failure? run)

/-- The replies to a sequence of calls. Without a catalogue they are those of a host that knows the
encodings with a decoder here. -/
def replies (lastError : Option Failure) (calls : List Call)
    (known : Catalogue := Encoding.catalogue) : List Reply :=
  match calls with
  | [] => []
  | call :: calls =>
    match call.reply known lastError with
    | (reply, lastError') => reply :: replies lastError' calls known

end Host

end BodyText
