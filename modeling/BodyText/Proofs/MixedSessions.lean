import BodyText.Proofs.Events
import BodyText.Session

/-!
# Chunks and events in one session

A session may ask for chunks and for events in turn, and give up a stream of events at any point.
The text that it is told, with the link of each piece, is what it would have been told by asking for
chunks only, as many as it asked for by way of the events (`Converter.told_session`): a stream that
is given up has nothing but link events in its queue, so no text is lost with it.

Text is conserved by each request for an event: what was in the queue and what the chunks bring that
are asked for is what is told (`EventStream.told_next`).
-/

namespace BodyText

/-! ### Text with its link -/

/-- The pieces of text among some events, each with the link that is open for it. -/
def Event.told (link : Option String) : List Event → List (String × Option String)
  | [] => []
  | .text s :: es => (s, link) :: told link es
  | .linkStart target :: es => told (some target) es
  | .linkEnd :: es => told none es

/-- The piece of text of a chunk, with its link; none of the empty text. -/
def Chunk.told (k : Chunk) : List (String × Option String) :=
  if k.text.isEmpty then [] else [(k.text, k.link)]

/-- The event of an answer, if it is one. -/
def Event.ofAnswer? : Option (Except ReadError Event) → Option Event
  | some (.ok e) => some e
  | some (.error _) | none => none

/-- The pieces of text that a call comes to. Events begin with no link open. -/
def Outcome.told : Outcome → List (String × Option String)
  | .chunk (.ok (some k)) => k.told
  | .chunk (.ok none) | .chunk (.error _) | .diagnostics _ => []
  | .events answers => Event.told none (answers.filterMap Event.ofAnswer?)

/-- The pieces of text of an answer. -/
def Answer.told : Answer → List (String × Option String)
  | .reply outcome _ => outcome.told
  | .rest _ => []

/-! ### Counting requests for chunks -/

/-- How many chunks are asked for to tell the next event. -/
def EventStream.requests (s : EventStream) : Nat :=
  match s.pending with
  | _ :: _ => 0
  | [] =>
    if s.finished then 0
    else
      match known s.converter.next with
      | ⟨(.error _, _), _⟩ => 1
      | ⟨(.ok none, c), _⟩ => ({ s with converter := c }.finish).requests + 1
      | ⟨(.ok (some k), c), _⟩ => ({ s with converter := c }.queue k).requests + 1
termination_by s.size
decreasing_by
  · exact precedes_of_finished (by simp_all) rfl
  · exact precedes_of_converter (by simp) (by simpa using Converter.precedes_of_next ‹_›)

/-- How many chunks are asked for to answer a number of requests for events. -/
def EventStream.requestsFor : Nat → EventStream → Nat
  | 0, _ => 0
  | n + 1, s => s.requests + requestsFor n s.next.2

namespace Converter

/-- How many requests for events a stream of events answers that is asked `count` times, or until
there are no more. -/
def answered (c : Converter) (count : Option Nat) : Nat :=
  count.getD (c.events.all.1.length + 1)

/-- How many chunks a session asks for, be it by way of events. -/
def requests (c : Converter) : List Call → Nat
  | [] | .finish :: _ => 0
  | .next :: calls => c.callNext.2.requests calls + 1
  | .events count :: calls =>
    c.events.requestsFor (c.answered count) + (c.callEvents count).2.requests calls
  | .diagnostics :: calls => c.requests calls

/-- The converter after a number of chunks. -/
def nexts : Nat → Converter → Converter
  | 0, c => c
  | n + 1, c => nexts n c.next.2

/-- The pieces of text of a number of chunks. -/
def told (c : Converter) (n : Nat) : List (String × Option String) :=
  (c.session (List.replicate n .next)).flatMap Answer.told

/-! ### Chunks only -/

theorem told_succ (c : Converter) (n : Nat) :
    c.told (n + 1) = (Outcome.chunk c.next.1).told ++ c.next.2.told n :=
  rfl

theorem nexts_add (c : Converter) (n m : Nat) : c.nexts (n + m) = (c.nexts n).nexts m := by
  induction n generalizing c with
  | zero =>
    rw [Nat.zero_add]
    rfl
  | succ n ih => rw [Nat.add_right_comm, nexts, ih, nexts]

theorem told_add (c : Converter) (n m : Nat) :
    c.told (n + m) = c.told n ++ (c.nexts n).told m := by
  induction n generalizing c with
  | zero =>
    rw [Nat.zero_add]
    rfl
  | succ n ih => rw [Nat.add_right_comm, told_succ, told_succ, ih, nexts, List.append_assoc]

end Converter

/-! ### Events -/

namespace Event

theorem told_append {link link' : Option String} {es : List Event} (h : Balanced link es link')
    (es' : List Event) : told link (es ++ es') = told link es ++ told link' es' := by
  induction h with
  | nil => rfl
  | text _ _ ih => exact congrArg (_ :: ·) ih
  | linkStart _ ih => exact ih
  | linkEnd _ ih => exact ih

/-- Link events tell no text. -/
theorem told_textless {es : List Event} (h : EventStream.Textless es) (link : Option String) :
    told link es = [] := by
  induction es generalizing link with
  | nil => rfl
  | cons e es ih =>
    have hes : EventStream.Textless es := fun s hmem => h s (List.mem_cons_of_mem e hmem)
    cases e with
    | text s => exact absurd List.mem_cons_self (h s)
    | linkStart target => exact ih hes (some target)
    | linkEnd => exact ih hes none

end Event

namespace EventStream

variable {s : EventStream} {link : Option String}

/-- The text of a chunk is in the queue once, with the link of the chunk. -/
theorem told_queue {k : Chunk} (hpending : s.pending = []) (hinLink : s.inLink = k.link.isSome)
    (h : k.Leaves s.converter.writer.link) : Event.told k.link (s.queue k).pending = k.told := by
  obtain ⟨marks, hqueue, htextless, -⟩ := exists_queue_eq hpending hinLink h
  rw [hqueue, Event.told_append (balanced_ofText k.text k.link), Event.told_textless htextless,
    List.append_nil, ofText, Chunk.told]
  split <;> rfl

theorem told_finish {c : Converter} (hpending : s.pending = []) :
    Event.told link ({ s with converter := c }.finish).pending = [] := by
  rw [pending_finish hpending]
  exact Event.told_textless (textless_linkEnd s.inLink) link

/-- How many chunks are asked for when nothing is queued, by what the first of them comes to. -/
theorem requests_eq (hpending : s.pending = []) (hfinished : s.finished = false) :
    s.requests =
      match s.converter.next with
      | (.error _, _) => 1
      | (.ok none, c) => ({ s with converter := c }.finish).requests + 1
      | (.ok (some k), c) => ({ s with converter := c }.queue k).requests + 1 := by
  rw [requests, hpending]
  simp only [hfinished, Bool.false_eq_true, if_false]
  split <;> rename_i hd _ <;> rw [hd]

/-- **Text is conserved.** What was in the queue and what is asked for is what is told, and the
converter is left as so many requests for chunks leave it. -/
theorem told_next (h : s.Sound link) :
    Event.told link s.pending ++ s.converter.told s.requests =
        Event.told link (Event.ofAnswer? s.next.1).toList ∧
      s.next.2.converter = s.converter.nexts s.requests := by
  fun_induction next s with
  | case1 s e later hpending =>
    obtain ⟨link', he, -, htextless⟩ := h.tell hpending
    have hnone : s.requests = 0 := by rw [requests, hpending]
    have htold := Event.told_append he later
    rw [Event.told_textless htextless, List.append_nil] at htold
    rw [hpending, hnone]
    exact ⟨(List.append_nil _).trans htold, rfl⟩
  | case2 s hpending hfinished =>
    have hnone : s.requests = 0 := by
      rw [requests, hpending]
      simp only [hfinished, if_true]
    rw [hpending, hnone]
    exact ⟨rfl, rfl⟩
  | case3 s hpending hfinished e c hnext =>
    have hfinished : s.finished = false := by simpa using hfinished
    have hone := requests_eq hpending hfinished
    rw [hnext] at hone
    rw [hpending, hone, Converter.told_succ, Converter.nexts, hnext]
    exact ⟨rfl, rfl⟩
  | case4 s hpending hfinished c hnext _ ih =>
    have hfinished : s.finished = false := by simpa using hfinished
    have hmore := requests_eq hpending hfinished
    have hnone : Event.told link s.pending = [] := by rw [hpending]; rfl
    obtain ⟨htold, hconverter⟩ := ih (h.finish hpending hfinished)
    rw [told_finish hpending] at htold
    rw [hnext] at hmore
    rw [hnone, hmore, Converter.told_succ, Converter.nexts, hnext]
    exact ⟨htold, hconverter⟩
  | case5 s hpending hfinished k c hnext _ ih =>
    have hfinished : s.finished = false := by simpa using hfinished
    have hmore := requests_eq hpending hfinished
    have hnone : Event.told link s.pending = [] := by rw [hpending]; rfl
    have hlinks := s.converter.links_next
    rw [hnext] at hlinks hmore
    cases hlinks with
    | chunk hk hleaves =>
      have hlink : link = k.link := by
        rw [h.link_eq hpending, linkAfter, hfinished, hk]
        rfl
      have hqueue := told_queue (s := { s with converter := c }) hpending
        (hk ▸ h.inLink hfinished) hleaves
      obtain ⟨htold, hconverter⟩ := ih (h.queue hpending hfinished hk hleaves)
      rw [queue_converter] at htold hconverter
      rw [← hlink] at hqueue
      rw [hqueue] at htold
      rw [hnone, hmore, Converter.told_succ, Converter.nexts, hnext]
      exact ⟨htold, hconverter⟩

/-- A stream that has nothing more to tell asks for no chunk and tells no text. -/
theorem told_of_over (n : Nat) (h : s.Over) :
    s.requestsFor n = 0 ∧ (s.take n).1.filterMap Event.ofAnswer? = [] ∧ (s.take n).2 = s := by
  rw [take_of_over n h]
  refine ⟨?_, ?_, rfl⟩
  · have hnone : s.requests = 0 := by
      obtain ⟨hpending, hfinished⟩ := h
      rw [requests, hpending]
      simp only [hfinished, if_true]
    induction n with
    | zero => rfl
    | succ n ih => rw [requestsFor, hnone, next_of_over h, ih]
  · rw [List.filterMap_eq_nil_iff]
    intro answer hanswer
    rw [List.eq_of_mem_replicate hanswer]
    rfl

/-- The text of any number of events is that of the chunks that are asked for. -/
theorem told_take (n : Nat) (h : s.Sound link) (htextless : Textless s.pending) :
    s.converter.told (s.requestsFor n) =
        Event.told link ((s.take n).1.filterMap Event.ofAnswer?) ∧
      (s.take n).2.converter = s.converter.nexts (s.requestsFor n) := by
  induction n generalizing s link with
  | zero => exact ⟨rfl, rfl⟩
  | succ n ih =>
    obtain ⟨htold, hconverter⟩ := told_next h
    have htells := tells_next h
    rw [Event.told_textless htextless, List.nil_append] at htold
    rw [requestsFor, Converter.told_add, Converter.nexts_add, htold, ← hconverter]
    rw [take]
    generalize s.next = result at htells hconverter
    -- only behind an event there may be more
    cases htells with
    | @event e link' s' he hsound htextless' _ =>
      obtain ⟨htold', hconverter'⟩ := ih hsound htextless'
      refine ⟨?_, hconverter'⟩
      rw [htold']
      exact (Event.told_append he _).symm
    | failed _ hover =>
      obtain ⟨hrequests, hnone, hsame⟩ := told_of_over n hover
      rw [hrequests]
      exact ⟨(congrArg (Event.told link) hnone).symm, congrArg converter hsame⟩
    | ended _ _ hover =>
      obtain ⟨hrequests, hnone, hsame⟩ := told_of_over n hover
      rw [hrequests]
      exact ⟨(congrArg (Event.told link) hnone).symm, congrArg converter hsame⟩

/-- All the events are what is answered until there are no more. -/
theorem take_all (s : EventStream) :
    s.take (s.all.1.length + 1) = (s.all.1.map some ++ [none], s.all.2) := by
  fun_induction all s with
  | case1 s s' hnext =>
    rw [List.length_nil, take, hnext]
    rfl
  | case2 s e s' hnext _ es s'' hall ih =>
    rw [hall] at ih
    rw [List.length_cons, take, hnext]
    simp only [ih]
    rfl

end EventStream

/-! ### Sessions -/

namespace Converter

/-- A stream of events tells the text of the chunks that it asks for, and leaves the converter as
they do. -/
theorem told_callEvents (c : Converter) (count : Option Nat) :
    (c.callEvents count).1.told = c.told (c.events.requestsFor (c.answered count)) ∧
      (c.callEvents count).2 = c.nexts (c.events.requestsFor (c.answered count)) := by
  obtain ⟨htold, hconverter⟩ := EventStream.told_take (c.answered count)
    (EventStream.sound_events c) (EventStream.textless_events c)
  have hcall : c.callEvents count =
      (.events (c.events.take (c.answered count)).1,
        (c.events.take (c.answered count)).2.converter) := by
    cases count with
    | some n => rfl
    | none =>
      rw [answered, Option.getD_none, EventStream.take_all]
      rfl
  rw [hcall]
  exact ⟨htold.symm, hconverter⟩

/-- **Events tell the text of the chunks.** Whatever state a converter is in, the pieces of text
that a session is told, each with its link, are those that it is told by asking for chunks only, as
many as it asked for itself. Streams of events may be given up anywhere in it. -/
theorem told_session (c : Converter) (calls : List Call) :
    (c.session calls).flatMap Answer.told =
      (c.session (List.replicate (c.requests calls) .next)).flatMap Answer.told := by
  change _ = c.told (c.requests calls)
  induction calls generalizing c with
  | nil => rfl
  | cons call calls ih =>
    cases call with
    | next =>
      rw [requests, told_succ, session, List.flatMap_cons, ih]
      rfl
    | events count =>
      obtain ⟨htold, hconverter⟩ := told_callEvents c count
      rw [requests, told_add, ← htold, ← hconverter, session, List.flatMap_cons, ih]
      rfl
    | diagnostics =>
      rw [requests, session, List.flatMap_cons, ih]
      rfl
    | finish => rfl

end Converter

end BodyText
