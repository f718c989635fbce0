import BodyText.Converter.Run

/-!
# Events

The chunks of a converter, told as events: runs of text, and links that start and end. Links are
balanced: a link that is open when the events begin is announced first, a link that opens inside
another one ends that first, and the end of the input ends an open link. A failure is told once,
and after it, as after the end, there are no more events.
-/

namespace BodyText

/-- Something to tell of a body. -/
inductive Event where
  /-- A run of text, never empty. -/
  | text (s : String)
  /-- A link starts; the text up to its end belongs to it. -/
  | linkStart (target : String)
  /-- The link ends. -/
  | linkEnd
  deriving DecidableEq, Repr

/-- The events of a converter. -/
structure EventStream where
  /-- Where the chunks come from. -/
  converter : Converter
  /-- The events to tell before the next chunk is asked for. -/
  pending : List Event := []
  /-- Whether a link was started and not ended. -/
  inLink : Bool := false
  /-- Whether there are no more chunks to ask for. -/
  finished : Bool := false

/-- The events of a converter from now on. -/
def Converter.events (c : Converter) : EventStream where
  converter := c
  pending := (c.writer.link.map Event.linkStart).toList
  inLink := c.writer.link.isSome

namespace EventStream

/-! ### Queuing events -/

/-- The event of some text; none of the empty text. -/
def ofText (text : String) : List Event := if text.isEmpty then [] else [.text text]

/-- Queues the events of a chunk. The link that it opened is the one that is then open. -/
def queue (s : EventStream) (k : Chunk) : EventStream :=
  if k.opensLink then
    { s with
      pending := s.pending ++ ofText k.text ++ (if s.inLink then [.linkEnd] else []) ++
        (s.converter.writer.link.map Event.linkStart).toList
      inLink := s.inLink || s.converter.writer.link.isSome }
  else if k.closesLink && s.inLink then
    { s with pending := s.pending ++ ofText k.text ++ [.linkEnd], inLink := false }
  else { s with pending := s.pending ++ ofText k.text }

/-- Ends the events; an open link ends with them. -/
def finish (s : EventStream) : EventStream :=
  { s with
    pending := s.pending ++ (if s.inLink then [.linkEnd] else [])
    inLink := false
    finished := true }

/-! ### Less to tell -/

/-- How much there is to tell: whether there are chunks to ask for, what they are made of, and what
is queued. -/
def size (s : EventStream) : Nat × (Nat × Nat) × Nat :=
  (if s.finished then 0 else 1, s.converter.size, s.pending.length)

/-- A stream that told something that another one had to tell. -/
def Precedes (s' s : EventStream) : Prop :=
  Prod.Lex (· < ·) (Prod.Lex (Prod.Lex (· < ·) (· < ·)) (· < ·)) s'.size s.size

@[simp] theorem queue_converter (s : EventStream) (k : Chunk) :
    (s.queue k).converter = s.converter := by
  rw [queue]
  split
  · rfl
  · split <;> rfl

@[simp] theorem queue_finished (s : EventStream) (k : Chunk) :
    (s.queue k).finished = s.finished := by
  rw [queue]
  split
  · rfl
  · split <;> rfl

theorem precedes_of_finished {s s' : EventStream} (h : s.finished = false)
    (h' : s'.finished = true) : Precedes s' s :=
  Prod.lex_def.2 (.inl (by simp [size, h, h']))

theorem precedes_of_converter {s s' : EventStream} (h : s'.finished = s.finished)
    (hc : Converter.Precedes s'.converter s.converter) : Precedes s' s :=
  Prod.lex_def.2 (.inr ⟨by simp [size, h], Prod.lex_def.2 (.inl hc.lex)⟩)

/-! ### Telling events -/

/-- The next event or failure; `none` when there are no more. -/
def next (s : EventStream) : Option (Except ReadError Event) × EventStream :=
  match s.pending with
  | e :: later => (some (.ok e), { s with pending := later })
  | [] =>
    if s.finished then (none, s)
    else
      match known s.converter.next with
      | ⟨(.error e, c), _⟩ => (some (.error e), { s with converter := c, finished := true })
      | ⟨(.ok none, c), _⟩ => ({ s with converter := c }.finish).next
      | ⟨(.ok (some k), c), _⟩ => ({ s with converter := c }.queue k).next
termination_by s.size
decreasing_by
  · exact precedes_of_finished (by simp_all) rfl
  · exact precedes_of_converter (by simp) (by simpa using Converter.precedes_of_next ‹_›)

/-- What the next event comes to, by what is queued and by the next chunk. -/
theorem next_eq (s : EventStream) :
    s.next =
      match s.pending with
      | e :: later => (some (.ok e), { s with pending := later })
      | [] =>
        if s.finished then (none, s)
        else
          match s.converter.next with
          | (.error e, c) => (some (.error e), { s with converter := c, finished := true })
          | (.ok none, c) => ({ s with converter := c }.finish).next
          | (.ok (some k), c) => ({ s with converter := c }.queue k).next := by
  rw [next]
  split
  · rfl
  · split
    · rfl
    · split <;> rename_i hd _ <;> rw [hd]

theorem Precedes.trans {a b c : EventStream} (hab : Precedes a b) (hbc : Precedes b c) :
    Precedes a c := by
  simp only [Precedes, Prod.lex_def, Prod.ext_iff] at *
  omega

/-- An event takes something off what there is to tell. -/
theorem precedes_of_next {s s' : EventStream} {e : Except ReadError Event}
    (h : s.next = (some e, s')) : Precedes s' s := by
  fun_induction next s with
  | case1 s d later hs =>
    cases h
    refine Prod.lex_def.2 (.inr ⟨rfl, Prod.lex_def.2 (.inr ⟨rfl, ?_⟩)⟩)
    simp [size, hs]
  | case2 => cases h
  | case3 s hs hf e' c hc =>
    cases h
    exact precedes_of_finished (by simpa using hf) rfl
  | case4 s hs hf c hc _ ih =>
    exact (ih h).trans (precedes_of_finished (by simpa using hf) rfl)
  | case5 s hs hf k c hc _ ih =>
    exact (ih h).trans
      (precedes_of_converter (by simp) (by simpa using Converter.precedes_of_next hc))

/-- The answers to a number of requests for the next event. -/
def take : Nat → EventStream → List (Option (Except ReadError Event)) × EventStream
  | 0, s => ([], s)
  | n + 1, s =>
    match s.next with
    | (e, s') =>
      match take n s' with
      | (es, s'') => (e :: es, s'')

/-- Every event that there is to tell, and the stream after them. -/
def all (s : EventStream) : List (Except ReadError Event) × EventStream :=
  match known s.next with
  | ⟨(none, s'), _⟩ => ([], s')
  | ⟨(some e, s'), _⟩ =>
    match all s' with
    | (es, s'') => (e :: es, s'')
termination_by s.size
decreasing_by exact precedes_of_next ‹_›

/-- Every event that there is to tell, by the next one. -/
theorem all_eq (s : EventStream) :
    s.all =
      match s.next with
      | (none, s') => ([], s')
      | (some e, s') => (e :: s'.all.1, s'.all.2) := by
  rw [all]
  split <;> rename_i hd _ <;> rw [hd]

end EventStream

end BodyText
