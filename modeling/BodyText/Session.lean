import BodyText.EventStream

/-!
# Sessions

A session is a sequence of calls on one converter. Events that were queued when a stream of events
is given up are lost; the converter keeps what it has used up.
-/

namespace BodyText

/-- A call on a converter. -/
inductive Call where
  /-- Asks for the next chunk. -/
  | next
  /-- Asks a new stream of events: `count` times, or until there are no more. -/
  | events (count : Option Nat)
  /-- Asks for the diagnostics. -/
  | diagnostics
  /-- Gives the input back. -/
  | finish
  deriving DecidableEq, Repr

/-- What a call comes to. -/
inductive Outcome where
  /-- A chunk, the end of the input, or a failure. -/
  | chunk (result : Except ReadError (Option Chunk))
  /-- What the stream of events answered to each request. -/
  | events (answers : List (Option (Except ReadError Event)))
  /-- The diagnostics. -/
  | diagnostics (found : List Diagnostic)

/-- What can be seen of a converter between two calls. -/
structure Status where
  /-- The last notable thing that happened. -/
  transition : Transition
  /-- The target of the open link. -/
  link : Option String
  /-- Whether the text is preformatted. -/
  preformatted : Bool
  /-- How many diagnostics there are. -/
  diagnostics : Nat
  deriving DecidableEq, Repr

/-- The answer to a call. -/
inductive Answer where
  /-- What the call came to, and what can be seen after it. -/
  | reply (outcome : Outcome) (status : Status)
  /-- The bytes that were not read; the session is over. -/
  | rest (bytes : List UInt8)

namespace Converter

/-- What can be seen of a converter. -/
def status (c : Converter) : Status where
  transition := c.writer.transition
  link := c.writer.link
  preformatted := c.writer.layout.preformatted
  diagnostics := c.writer.diagnostics.length

/-- Asks for the next chunk. -/
def callNext (c : Converter) : Outcome × Converter :=
  match c.next with
  | (result, c') => (.chunk result, c')

/-- Asks a new stream of events, and gives it up afterwards. -/
def callEvents (c : Converter) : Option Nat → Outcome × Converter
  | some n =>
    match c.events.take n with
    | (answers, s) => (.events answers, s.converter)
  | none =>
    match c.events.all with
    | (told, s) => (.events (told.map some ++ [none]), s.converter)

/-- The answers to the calls of a session. -/
def session (c : Converter) : List Call → List Answer
  | [] => []
  | .finish :: _ => [.rest c.reader.stream.bytes]
  | .next :: calls =>
    match c.callNext with
    | (outcome, c') => .reply outcome c'.status :: c'.session calls
  | .events count :: calls =>
    match c.callEvents count with
    | (outcome, c') => .reply outcome c'.status :: c'.session calls
  | .diagnostics :: calls =>
    .reply (.diagnostics c.writer.diagnostics) c.status :: c.session calls

end Converter

end BodyText
