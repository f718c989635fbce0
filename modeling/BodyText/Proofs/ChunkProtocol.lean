import Mathlib
import BodyText.Proofs.MixedSessions
import BodyText.Proofs.Turns

/-!
# What a call for a chunk shows

Between two calls, the open link and the last transition of a converter can be seen. They keep to a
protocol (`Exchange`): a chunk has the link that was open before the call, its own transition tells
the link that is open afterwards, and the transition that can be seen after the call says that the
input ended just when the call found that. This holds of every call for a chunk in any session, be
it with failures and pauses (`Converter.protocol_session`).

Once nothing more arrives and the end of the input was answered, nothing is left of the text that
was read (`Converter.Spent`), and every later call for a chunk finds the end again.
-/

namespace BodyText

/-! ### The protocol -/

/-- What a call for a chunk may come to, and what can be seen after it, by the link that was open
before it. -/
inductive Exchange (link : Option String) : Except ReadError (Option Chunk) → Status → Prop
  /-- A chunk that a link ended by opening. -/
  | opened {k : Chunk} {after : Status} : k.transition = .linkOpened → k.link = link →
      after.link.isSome = true → Exchange link (.ok (some k)) after
  /-- A chunk that a link ended by closing. -/
  | closed {k : Chunk} {after : Status} : k.transition = .linkClosed → k.link = link →
      after.link = none → Exchange link (.ok (some k)) after
  /-- A chunk that no link ended; then there is some text, and the link stays open. -/
  | within {k : Chunk} {after : Status} : k.transition ∉ [.ended, .linkOpened, .linkClosed] →
      k.text ≠ "" → k.link = link → after.link = link → Exchange link (.ok (some k)) after
  /-- The end of the input. -/
  | ended {after : Status} : after.transition = .ended → after.link = link →
      Exchange link (.ok none) after
  /-- A failure. -/
  | failed {e : ReadError} {after : Status} : after.transition ≠ .ended → after.link = link →
      Exchange link (.error e) after

/-- The answers of a session in which each call for a chunk keeps to the protocol, by the link that
is open before the first of them. -/
inductive Protocol : Option String → List Answer → Prop
  /-- There are no more calls. -/
  | nil {link : Option String} : Protocol link []
  /-- A call for a chunk. -/
  | chunk {link : Option String} {result : Except ReadError (Option Chunk)} {after : Status}
      {answers : List Answer} : Exchange link result after → Protocol after.link answers →
      Protocol link (.reply (.chunk result) after :: answers)
  /-- Some events. -/
  | events {link : Option String} {told : List (Option (Except ReadError Event))} {after : Status}
      {answers : List Answer} : Protocol after.link answers →
      Protocol link (.reply (.events told) after :: answers)
  /-- The diagnostics, which change nothing. -/
  | diagnostics {link : Option String} {found : List Diagnostic} {after : Status}
      {answers : List Answer} : after.link = link → Protocol link answers →
      Protocol link (.reply (.diagnostics found) after :: answers)
  /-- The session is over. -/
  | rest {link : Option String} {bytes : List UInt8} : Protocol link [.rest bytes]

/-! ### The end that is noted -/

/-- A chunk that a link ended did not end with the input. -/
theorem Chunk.transition_ne_ended_of_boundary? {k : Chunk} {b : Boundary}
    (h : k.boundary? = some b) : k.transition ≠ .ended := by
  rintro hended
  simp [boundary?, opensLink, closesLink, hended] at h

namespace Writer

theorem transition_noteMarkup_ne_ended (w : Writer) : w.noteMarkup.transition ≠ .ended := nofun

theorem transition_perform_ne_ended {w w' : Writer} {tag : Tag} {action : Action}
    (hw : w.transition ≠ .ended) (h : w.perform tag action = (none, w')) :
    w'.transition ≠ .ended := by
  cases action with
  | openLink =>
    rw [perform] at h
    cases hvalue : tag.value? "href" with
    | none =>
      rw [hvalue] at h
      cases h
      exact hw
    | some target =>
      rw [hvalue] at h
      cases h
  | closeLink => cases h
  | _ =>
    cases h
    exact Transition.noConfusion

theorem transition_writeTag_ne_ended {w w' : Writer} {tag : Tag} (hw : w.transition ≠ .ended)
    (h : w.writeTag tag = (none, w')) : w'.transition ≠ .ended := by
  rw [writeTag] at h
  split at h
  · exact transition_perform_ne_ended hw h
  · cases h
    exact hw

/-- A writer that goes on after an item does not note the end of the input. -/
theorem transition_write_ne_ended {w w' : Writer} {item : Item} (hw : w.transition ≠ .ended)
    (h : w.write item = (none, w')) : w'.transition ≠ .ended := by
  cases item with
  | char c =>
    cases h
    exact hw
  | blank c =>
    cases h
    exact hw
  | reference token =>
    rw [write, writeReference] at h
    split at h
    · cases h
      exact hw
    · cases h
      rwa [transition_report]
  | skipped =>
    cases h
    exact w.transition_noteMarkup_ne_ended
  | tag text =>
    rw [write] at h
    split at h
    · cases h
      exact w.transition_noteMarkup_ne_ended
    · exact transition_writeTag_ne_ended w.transition_noteMarkup_ne_ended h
    · refine transition_writeTag_ne_ended ?_ h
      rw [transition_report]
      exact w.transition_noteMarkup_ne_ended
  | unclosed text =>
    cases h
    rw [transition_report]
    exact w.transition_noteMarkup_ne_ended

theorem Noted.transition_ne_ended {p : Prop} {w w' : Writer} (h : Noted p w w')
    (hw : w.transition ≠ .ended) : w'.transition ≠ .ended := by
  cases h with
  | refl => exact hw
  | note line _ _ =>
    rw [noteDegraded, transition_report]
    exact Transition.noConfusion

end Writer

namespace Reader

/-- A read that finds the end of the input holds nothing back. -/
theorem carry_of_pull_none {r r' : Reader} (h : r.pull = (.ok none, r')) : r'.carry = [] := by
  obtain ⟨taken, s, -, hsettle⟩ := settle_of_pull h
  rw [settle] at hsettle
  split at hsettle <;> cases hsettle
  rfl

end Reader

namespace Converter

theorem carry_of_refill {c c' : Converter} (h : c.refill = (.ok false, c')) :
    c'.reader.carry = [] := by
  rw [refill] at h
  split at h
  · cases h
  · rename_i hpull
    cases h
    exact Reader.carry_of_pull_none hpull
  · cases h

/-- What a call leaves: the end of the input is noted just when that is the answer, and then there
is no text at hand and nothing held back. -/
def Concludes : Except ReadError (Option Chunk) → Converter → Prop
  | .error _, c => c.writer.transition ≠ .ended
  | .ok (some k), _ => k.transition ≠ .ended
  | .ok none, c => c.writer.transition = .ended ∧ c.unread = [] ∧ c.reader.carry = []

/-- What a turn leaves: the end of the input is not noted before it is the answer. -/
def Move.Concludes : Move → Prop
  | onward _ c => c.writer.transition ≠ .ended
  | answer result c => Converter.Concludes result c

theorem concludes_put {c : Converter} (h : c.writer.transition ≠ .ended) (item : Item)
    (rest : List Char) : ((c.withUnread rest).put item).Concludes := by
  have hpassing := (c.withUnread rest).writer.passing_write item
  rw [put]
  split
  · rename_i k w hwrite
    rw [hwrite] at hpassing
    cases hpassing with
    | handed hboundary _ _ => exact Chunk.transition_ne_ended_of_boundary? hboundary
  · rename_i hwrite
    exact Writer.transition_write_ne_ended h hwrite

theorem concludes_act {c : Converter} (h : c.writer.transition ≠ .ended) (p : Phase) :
    (c.act p).Concludes := by
  cases p with
  | seeking q => exact concludes_put h _ _
  | between =>
    rw [act]
    split
    · exact h
    · exact h
    · exact h
    · exact h
    · exact concludes_put h _ _
    · exact concludes_put h _ _

/-- **What a turn leaves.** -/
theorem concludes_turn {c : Converter} (h : c.writer.transition ≠ .ended) (p : Phase) :
    (c.turn p).Concludes := by
  have hnoted := (noted_refill c).transition_ne_ended h
  generalize hmove : c.turn p = move
  cases turn_eq_iff.1 hmove with
  | act => exact concludes_act h p
  | failed _ hrefill =>
    rw [hrefill] at hnoted
    exact hnoted
  | line _ hrefill =>
    rw [hrefill] at hnoted
    exact hnoted
  | atEnd hwants hrefill =>
    rw [hrefill] at hnoted
    cases p with
    | seeking q => exact concludes_put hnoted _ _
    | between =>
      rw [wants, Bool.and_eq_true, List.isEmpty_iff] at hwants
      have hunread := (unread_of_refill hrefill (by simp)).trans hwants.1
      have hcarry := carry_of_refill hrefill
      exact ⟨rfl, hunread, hcarry⟩

/-- What the turns to an answer leave. -/
theorem Answers.concludes {n : Nat} {p : Phase} {c : Converter}
    {answer : Except ReadError (Option Chunk) × Converter} (h : Answers n p c answer)
    (hc : c.writer.transition ≠ .ended) : Concludes answer.1 answer.2 := by
  induction h with
  | @last p c c' result hturn =>
    have hmove := concludes_turn hc p
    rwa [hturn] at hmove
  | @onward n p p' c c' answer hturn _ ih =>
    have hmove := concludes_turn hc p
    rw [hturn] at hmove
    exact ih hmove

theorem concludes_next (c : Converter) : Concludes c.next.1 c.next.2 := by
  obtain ⟨n, hanswers⟩ := answers_next c
  exact hanswers.concludes nofun

/-- A call for a chunk keeps to the protocol. -/
theorem exchange_next (c : Converter) : Exchange c.writer.link c.next.1 c.next.2.status := by
  have hlinks := c.links_next
  have hconcludes := c.concludes_next
  generalize c.next = answer at hlinks hconcludes
  cases hlinks with
  | failed hlink => exact .failed hconcludes hlink
  | ended hlink => exact .ended hconcludes.1 hlink
  | @chunk k c' hk hleaves =>
    generalize hafter : c'.writer.link = after at hleaves
    cases hleaves with
    | opened hboundary =>
      have hopens := Chunk.opensLink_of_boundary? hboundary
      exact .opened (of_decide_eq_true hopens) hk (congrArg Option.isSome hafter)
    | closed hboundary =>
      have hcloses := (Chunk.closesLink_of_boundary? hboundary).2
      exact .closed (of_decide_eq_true hcloses) hk hafter
    | within hboundary htext =>
      obtain ⟨hopens, hcloses⟩ := Chunk.not_link_of_boundary? hboundary
      have hended : k.transition ≠ .ended := hconcludes
      refine .within ?_ htext hk (hafter.trans hk)
      simp [hended, of_decide_eq_false hopens, of_decide_eq_false hcloses]

/-! ### Nothing more arrives -/

end Converter

/-- A stream from which nothing more arrives: no byte and no failure. -/
structure Stream.AtEnd (s : Stream) : Prop where
  /-- It does not fail. -/
  unbroken : s.Unbroken
  /-- It has no bytes. -/
  bytes : s.bytes = []

/-- No line is taken from such a stream, and it stays so. -/
theorem Stream.AtEnd.takeLine {s : Stream} (h : s.AtEnd) (room : Nat) :
    ∃ s', s.takeLine room = (.ok [], s') ∧ s'.AtEnd := by
  induction s generalizing room with
  | nil => exact ⟨[], rfl, h⟩
  | cons f s ih =>
    obtain ⟨hunbroken, hbytes⟩ := h
    cases f with
    | segment bs =>
      obtain ⟨rfl, hs⟩ := List.append_eq_nil_iff.1 hbytes
      have hhead : lineHead room [] = [] := by cases room <;> rfl
      rw [Stream.takeLine, hhead]
      split
      · exact ⟨s, rfl, hunbroken, hs⟩
      · obtain ⟨s', htake, hs'⟩ := ih ⟨hunbroken, hs⟩ (room - ([] : List UInt8).length)
        rw [htake]
        exact ⟨s', rfl, hs'⟩
    | interrupted => exact ih ⟨hunbroken, hbytes⟩ room
    | failure cause => exact absurd hunbroken not_false
    | pause => exact ⟨s, rfl, hunbroken.2, hbytes⟩

namespace Converter

/-- Nothing is left to convert. -/
structure Spent (c : Converter) : Prop where
  /-- There is no text at hand. -/
  unread : c.unread = []
  /-- Nothing is held back. -/
  carry : c.reader.carry = []
  /-- Nothing more arrives. -/
  atEnd : c.reader.stream.AtEnd

/-- A call finds the end of the input, and leaves nothing either. -/
theorem Spent.next {c : Converter} (h : c.Spent) : c.next.1 = .ok none ∧ c.next.2.Spent := by
  obtain ⟨s, htake, hs⟩ := h.atEnd.takeLine (c.reader.limit - c.reader.carry.length)
  have hpull : c.reader.pull = (.ok none, { c.reader with stream := s, carry := [] }) := by
    rw [Reader.pull, htake, h.carry]
    rfl
  have hrefill : c.fresh.refill =
      (.ok false, { c.fresh with reader := { c.reader with stream := s, carry := [] } }) := by
    rw [refill, show c.fresh.reader = c.reader from rfl, hpull]
  have hwants : c.fresh.wants .between = true := by
    rw [wants, show c.fresh.unread = [] from h.unread]
    rfl
  rw [next_eq_of_answers (.last (turn_eq_iff.2 (.atEnd hwants hrefill)))]
  exact ⟨rfl, h.unread, rfl, hs⟩

theorem Spent.nexts {c : Converter} (h : c.Spent) (n : Nat) : (c.nexts n).Spent := by
  induction n generalizing c with
  | zero => exact h
  | succ n ih => exact ih h.next.2

/-- Every call for a chunk in a session finds the end of the input. -/
theorem Spent.eq_none_of_mem_session {c : Converter} (h : c.Spent) {calls : List Call}
    {result : Except ReadError (Option Chunk)} {after : Status}
    (hmem : .reply (.chunk result) after ∈ c.session calls) : result = .ok none := by
  induction calls generalizing c with
  | nil => cases hmem
  | cons call calls ih =>
    cases call with
    | next =>
      obtain ⟨hnone, hspent⟩ := h.next
      rcases List.mem_cons.1 hmem with heq | hmem
      · cases heq
        exact hnone
      · exact ih hspent hmem
    | events count =>
      have hspent : (c.callEvents count).2.Spent := by
        rw [(told_callEvents c count).2]
        exact h.nexts _
      rcases List.mem_cons.1 hmem with heq | hmem
      · cases count <;> cases heq
      · exact ih hspent hmem
    | diagnostics =>
      rcases List.mem_cons.1 hmem with heq | hmem
      · cases heq
      · exact ih h hmem
    | finish => cases List.mem_singleton.1 hmem

/-! ### Sessions -/

/-- **Calls keep to the protocol.** In any state, and whatever calls a session makes, each call for
a chunk shows the links and the end of the input as the protocol says. Once the end of the input
was answered and nothing more arrives, every call for a chunk is answered so. -/
theorem protocol_session (c : Converter) (calls : List Call) :
    Protocol c.writer.link (c.session calls) ∧
      ∀ c', c.next = (.ok none, c') → c'.reader.stream.AtEnd →
        ∀ result after, .reply (.chunk result) after ∈ c'.session calls → result = .ok none := by
  constructor
  · induction calls generalizing c with
    | nil => exact .nil
    | cons call calls ih =>
      cases call with
      | next => exact .chunk c.exchange_next (ih c.next.2)
      | events count => cases count <;> exact .events (ih _)
      | diagnostics => exact .diagnostics rfl (ih c)
      | finish => exact .rest
  · intro c' hnext hatEnd result after hmem
    have hconcludes := c.concludes_next
    rw [hnext] at hconcludes
    obtain ⟨-, hunread, hcarry⟩ := hconcludes
    exact Spent.eq_none_of_mem_session ⟨hunread, hcarry, hatEnd⟩ hmem

/-- A link that is never closed: the converter behind the last chunk of it. -/
def inOpenLink : Converter :=
  (start [.segment [0x3C, 0x61, 0x20, 0x68, 0x72, 0x65, 0x66, 0x3D, 0x78, 0x3E, 0x79], .pause,
    .interrupted] .utf8 {}).nexts 2

/-- The link is open before and after the end of the input, which is answered again and again. -/
theorem protocol_session_of_open_link :
    (inOpenLink.next = (.ok none, inOpenLink.next.2) ∧
        inOpenLink.next.2.reader.stream.AtEnd) ∧
      Protocol (some "x") (inOpenLink.session [.next, .events none, .next]) ∧
      ∀ result after,
        .reply (.chunk result) after ∈ inOpenLink.next.2.session [.next, .events none, .next] →
          result = .ok none := by
  have hnone : inOpenLink.next.1 = .ok none := by cbv
  have hlink : inOpenLink.writer.link = some "x" := by cbv
  have hstream : inOpenLink.next.2.reader.stream = [] := by cbv
  have hnext : inOpenLink.next = (.ok none, inOpenLink.next.2) := by rw [← hnone]
  have hatEnd : inOpenLink.next.2.reader.stream.AtEnd := hstream ▸ ⟨trivial, rfl⟩
  obtain ⟨hprotocol, hagain⟩ := protocol_session inOpenLink [.next, .events none, .next]
  rw [hlink] at hprotocol
  exact ⟨⟨hnext, hatEnd⟩, hprotocol, hagain _ hnext hatEnd⟩

end Converter

end BodyText
