import BodyText.EventStream
import BodyText.Proofs.Links

/-!
# Events are balanced

Whatever state a converter is in, and whatever its stream still brings, the events that it tells are
balanced: links start and end in turn, and no text is empty (`Event.Balanced`). They end with the
end of the input, where no link is left open, or with one failure, and nothing comes after either
(`Converter.take_events`).

What carries this is that the events in the queue lead from the link that was told to the link that
is open in the converter (`EventStream.Sound`). Text stands only at the head of the queue, as a
chunk is asked for only when nothing is queued.
-/

namespace BodyText

/-! ### Balanced events -/

/-- Events that may be told while the link `before` is open, and that leave the link `after` open: a
link starts only where none is open, and ends only where one is; no text is empty. -/
inductive Event.Balanced : Option String → List Event → Option String → Prop
  /-- No events. -/
  | nil {link : Option String} : Balanced link [] link
  /-- Some text, which is not empty. -/
  | text {before after : Option String} {s : String} {es : List Event} : s ≠ "" →
      Balanced before es after → Balanced before (.text s :: es) after
  /-- A link starts where none is open. -/
  | linkStart {target : String} {after : Option String} {es : List Event} :
      Balanced (some target) es after → Balanced none (.linkStart target :: es) after
  /-- The open link ends. -/
  | linkEnd {target : String} {after : Option String} {es : List Event} :
      Balanced none es after → Balanced (some target) (.linkEnd :: es) after

namespace Event

theorem Balanced.append {before between after : Option String} {es es' : List Event}
    (h : Balanced before es between) (h' : Balanced between es' after) :
    Balanced before (es ++ es') after := by
  induction h with
  | nil => exact h'
  | text hs _ ih => exact .text hs (ih h')
  | linkStart _ ih => exact .linkStart (ih h')
  | linkEnd _ ih => exact .linkEnd (ih h')

/-- The first event alone leads to a link that the others go on from. -/
theorem Balanced.cons {before after : Option String} {e : Event} {es : List Event}
    (h : Balanced before (e :: es) after) :
    ∃ between, Balanced before [e] between ∧ Balanced between es after := by
  cases h with
  | text hs hes => exact ⟨before, .text hs .nil, hes⟩
  | linkStart hes => exact ⟨_, .linkStart .nil, hes⟩
  | linkEnd hes => exact ⟨none, .linkEnd .nil, hes⟩

theorem Balanced.eq_of_nil {before after : Option String} (h : Balanced before [] after) :
    before = after := by
  cases h
  rfl

end Event

/-! ### Chunks and their boundaries -/

namespace Chunk

variable {k : Chunk}

theorem opensLink_of_boundary? (h : k.boundary? = some .opens) : k.opensLink = true := by
  unfold boundary? at h
  split at h
  · assumption
  · split at h <;> cases h

theorem closesLink_of_boundary? (h : k.boundary? = some .closes) :
    k.opensLink = false ∧ k.closesLink = true := by
  unfold boundary? at h
  split at h
  · cases h
  · rename_i hopens
    split at h
    · rename_i hcloses
      exact ⟨by simpa using hopens, hcloses⟩
    · cases h

theorem not_link_of_boundary? (h : k.boundary? = none) :
    k.opensLink = false ∧ k.closesLink = false := by
  unfold boundary? at h
  split at h
  · cases h
  · rename_i hopens
    split at h
    · cases h
    · rename_i hcloses
      exact ⟨by simpa using hopens, by simpa using hcloses⟩

end Chunk

namespace EventStream

/-! ### The queue -/

/-- Events among which there is no text. -/
def Textless (es : List Event) : Prop := ∀ s, Event.text s ∉ es

theorem balanced_ofText (text : String) (link : Option String) :
    Event.Balanced link (ofText text) link := by
  unfold ofText
  split
  · exact .nil
  · rename_i h
    exact .text (by simpa using h) .nil

theorem textless_tail_ofText (text : String) {marks : List Event} (h : Textless marks) :
    Textless (ofText text ++ marks).tail := by
  intro s hmem
  unfold ofText at hmem
  split at hmem
  · exact h s (List.mem_of_mem_tail hmem)
  · exact h s hmem

theorem textless_linkEnd (inLink : Bool) :
    Textless (if inLink then [Event.linkEnd] else []) := by
  intro s hmem
  split at hmem <;> simp at hmem

/-- The events that the end of an open link makes. -/
theorem balanced_linkEnd (link : Option String) :
    Event.Balanced link (if link.isSome then [.linkEnd] else []) none := by
  cases link with
  | none => exact .nil
  | some target => exact .linkEnd .nil

/-- **A chunk is queued as its text**, and behind it the events that lead from its link to the one
that is open after it. -/
theorem exists_queue_eq {s : EventStream} {k : Chunk} (hpending : s.pending = [])
    (hinLink : s.inLink = k.link.isSome) (h : k.Leaves s.converter.writer.link) :
    ∃ marks, (s.queue k).pending = ofText k.text ++ marks ∧ Textless marks ∧
      Event.Balanced k.link marks s.converter.writer.link ∧
      (s.queue k).inLink = s.converter.writer.link.isSome := by
  generalize hlink : s.converter.writer.link = link at h
  cases h with
  | @opened target hboundary =>
    have hopens := Chunk.opensLink_of_boundary? hboundary
    refine ⟨(if k.link.isSome then [.linkEnd] else []) ++ [.linkStart target], ?_, ?_,
      (balanced_linkEnd k.link).append (.linkStart .nil), ?_⟩
    · simp [queue, hopens, hpending, hinLink, hlink]
    · intro t hmem
      rcases List.mem_append.1 hmem with hmem | hmem
      · exact textless_linkEnd k.link.isSome t hmem
      · cases List.mem_singleton.1 hmem
    · simp [queue, hopens, hlink]
  | closed hboundary =>
    obtain ⟨hopens, hcloses⟩ := Chunk.closesLink_of_boundary? hboundary
    refine ⟨if k.link.isSome then [.linkEnd] else [], ?_, textless_linkEnd _,
      balanced_linkEnd k.link, ?_⟩
    · cases hk : k.link <;> simp [queue, hopens, hcloses, hpending, hinLink, hk]
    · cases hk : k.link <;> simp [queue, hopens, hcloses, hinLink, hk]
  | within hboundary _ =>
    obtain ⟨hopens, hcloses⟩ := Chunk.not_link_of_boundary? hboundary
    refine ⟨[], ?_, fun t => List.not_mem_nil, .nil, ?_⟩
    · simp [queue, hopens, hcloses, hpending]
    · simp [queue, hopens, hcloses, hinLink]

/-! ### What a stream is like -/

/-- The link that is open once the events in the queue were told. -/
def linkAfter (s : EventStream) : Option String :=
  if s.finished then none else s.converter.writer.link

/-- A stream of events between two requests or inside one, when the link `link` was told. -/
structure Sound (link : Option String) (s : EventStream) : Prop where
  /-- The events in the queue go on from what was told. -/
  pending : Event.Balanced link s.pending s.linkAfter
  /-- There is no text but at the head of the queue. -/
  text : Textless s.pending.tail
  /-- It is known whether a link is open. -/
  inLink : s.finished = false → s.inLink = s.converter.writer.link.isSome

/-- A stream that has nothing more to tell. -/
def Over (s : EventStream) : Prop := s.pending = [] ∧ s.finished = true

/-- The failure that is still to be told. -/
def failure? (s : EventStream) : Option ReadError :=
  if s.finished then none else s.converter.run.failure

theorem textless_events (c : Converter) : Textless c.events.pending := by
  intro s hmem
  unfold Converter.events at hmem
  cases hlink : c.writer.link <;> simp [hlink] at hmem

/-- A stream starts with the link that is open. -/
theorem sound_events (c : Converter) : c.events.Sound none := by
  refine ⟨?_, fun s hmem => textless_events c s (List.mem_of_mem_tail hmem), fun _ => rfl⟩
  change Event.Balanced none (c.writer.link.map Event.linkStart).toList c.writer.link
  cases c.writer.link with
  | none => exact .nil
  | some target => exact .linkStart .nil

variable {s : EventStream} {link : Option String}

/-- With nothing queued, what was told is what is the case. -/
theorem Sound.link_eq (h : s.Sound link) (hpending : s.pending = []) : link = s.linkAfter := by
  have hbalanced := h.pending
  rw [hpending] at hbalanced
  exact hbalanced.eq_of_nil

/-- The first event of the queue is told. -/
theorem Sound.tell {e : Event} {later : List Event} (h : s.Sound link)
    (hpending : s.pending = e :: later) :
    ∃ link', Event.Balanced link [e] link' ∧ Sound link' { s with pending := later } ∧
      Textless later := by
  have hbalanced := h.pending
  have htext := h.text
  rw [hpending] at hbalanced htext
  obtain ⟨link', he, hlater⟩ := hbalanced.cons
  exact ⟨link', he, ⟨hlater, fun t hmem => htext t (List.mem_of_mem_tail hmem), h.inLink⟩, htext⟩

/-- A chunk more is queued. -/
theorem Sound.queue {c : Converter} {k : Chunk} (h : s.Sound link) (hpending : s.pending = [])
    (hfinished : s.finished = false) (hk : k.link = s.converter.writer.link)
    (hleaves : k.Leaves c.writer.link) : ({ s with converter := c }.queue k).Sound link := by
  have hlink := h.link_eq hpending
  rw [linkAfter, hfinished] at hlink
  obtain ⟨marks, hqueue, htextless, hmarks, hinLink⟩ :=
    exists_queue_eq (s := { s with converter := c }) hpending (hk ▸ h.inLink hfinished) hleaves
  refine ⟨?_, ?_, fun _ => by rw [queue_converter]; exact hinLink⟩
  · rw [hqueue, linkAfter, queue_finished, queue_converter, hfinished, hlink]
    rw [hk] at hmarks
    exact (balanced_ofText k.text _).append hmarks
  · rw [hqueue]
    exact textless_tail_ofText k.text htextless

/-- The end of the input is queued as the end of the open link. -/
theorem pending_finish {c : Converter} (hpending : s.pending = []) :
    ({ s with converter := c }.finish).pending = if s.inLink then [.linkEnd] else [] := by
  rw [EventStream.finish, hpending, List.nil_append]

/-- The end of the input ends an open link. -/
theorem Sound.finish {c : Converter} (h : s.Sound link) (hpending : s.pending = [])
    (hfinished : s.finished = false) : ({ s with converter := c }.finish).Sound link := by
  have hlink := h.link_eq hpending
  rw [linkAfter, hfinished] at hlink
  have hinLink : s.inLink = link.isSome := hlink ▸ h.inLink hfinished
  refine ⟨?_, ?_, fun hf => by cases hf⟩
  · rw [pending_finish hpending, hinLink]
    exact balanced_linkEnd link
  · rw [pending_finish hpending]
    intro t hmem
    exact textless_linkEnd s.inLink t (List.mem_of_mem_tail hmem)

/-! ### The next event -/

/-- What a stream answers to a request for the next event, when the link `link` was told. -/
inductive Tells (link : Option String) (s : EventStream) :
    Option (Except ReadError Event) × EventStream → Prop
  /-- An event; no text is left in the queue. -/
  | event {e : Event} {link' : Option String} {s' : EventStream} :
      Event.Balanced link [e] link' → s'.Sound link' → Textless s'.pending →
      s'.failure? = s.failure? → Tells link s (some (.ok e), s')
  /-- The failure; nothing comes after it. -/
  | failed {e : ReadError} {s' : EventStream} : s.failure? = some e → s'.Over →
      Tells link s (some (.error e), s')
  /-- There are no more events, and no link is open. -/
  | ended {s' : EventStream} : s.failure? = none → link = none → s'.Over → Tells link s (none, s')

theorem Tells.congr {s' : EventStream} {answer : Option (Except ReadError Event) × EventStream}
    (h : Tells link s' answer) (hfailure : s'.failure? = s.failure?) : Tells link s answer := by
  cases h with
  | event he hsound htext hsame => exact .event he hsound htext (hsame.trans hfailure)
  | failed hsome hover => exact .failed (hfailure ▸ hsome) hover
  | ended hnone hlink hover => exact .ended (hfailure ▸ hnone) hlink hover

/-- **A request for the next event** keeps a stream sound, or ends it. -/
theorem tells_next (h : s.Sound link) : Tells link s s.next := by
  fun_induction next s with
  | case1 s e later hpending =>
    obtain ⟨link', he, hsound, htext⟩ := h.tell hpending
    exact .event he hsound htext rfl
  | case2 s hpending hfinished =>
    have hlink := h.link_eq hpending
    rw [linkAfter, hfinished] at hlink
    exact .ended (by rw [failure?, hfinished]; rfl) hlink ⟨hpending, hfinished⟩
  | case3 s hpending hfinished e c hnext =>
    refine .failed ?_ ⟨hpending, rfl⟩
    rw [failure?, if_neg hfinished, Converter.run_eq, hnext]
  | case4 s hpending hfinished c hnext _ ih =>
    refine (ih (h.finish hpending (by simpa using hfinished))).congr ?_
    rw [failure?, failure?, if_neg hfinished, Converter.run_eq s.converter, hnext]
    rfl
  | case5 s hpending hfinished k c hnext _ ih =>
    have hlinks := s.converter.links_next
    rw [hnext] at hlinks
    cases hlinks with
    | chunk hk hleaves =>
      refine (ih (h.queue hpending (by simpa using hfinished) hk hleaves)).congr ?_
      rw [failure?, failure?, queue_finished, queue_converter, if_neg hfinished, if_neg hfinished,
        Converter.run_eq s.converter, hnext]

/-! ### All the events -/

theorem next_of_over (h : s.Over) : s.next = (none, s) := by
  obtain ⟨hpending, hfinished⟩ := h
  rw [next_eq, hpending]
  simp only [hfinished, if_true]

theorem all_of_over (h : s.Over) : s.all = ([], s) := by
  rw [all_eq, next_of_over h]

/-- A stream that answered that there are no more events has nothing more to tell. -/
theorem over_of_next {s' : EventStream} (h : s.next = (none, s')) : s'.Over := by
  fun_induction next s with
  | case1 => cases h
  | case2 s hpending hfinished =>
    cases h
    exact ⟨hpending, hfinished⟩
  | case3 => cases h
  | case4 s _ _ c _ _ ih => exact ih h
  | case5 s _ _ k c _ _ ih => exact ih h

theorem take_of_over (n : Nat) (h : s.Over) : s.take n = (List.replicate n none, s) := by
  induction n with
  | zero => rfl
  | succ n ih =>
    rw [take, next_of_over h]
    simp only [ih]
    rfl

/-- **The answers to any number of requests** are all the events there are, and from then on that
there are no more. -/
theorem take_eq (s : EventStream) (n : Nat) :
    (s.take n).1 = (s.all.1.map some ++ List.replicate n none).take n := by
  induction n generalizing s with
  | zero => rfl
  | succ n ih =>
    rw [take, all_eq]
    generalize hnext : s.next = result
    obtain ⟨answer, s'⟩ := result
    cases answer with
    | none =>
      have htake := congrArg Prod.fst (take_of_over n (over_of_next hnext))
      change none :: (s'.take n).1 = _
      rw [htake]
      simp [List.replicate_succ]
    | some e =>
      change some e :: (s'.take n).1 = _
      rw [ih s']
      simp only [List.map_cons, List.cons_append, List.take_succ_cons, List.take_append,
        List.take_replicate]
      congr 3
      omega

/-- The events of a sound stream: they go on from what was told, and either the input ends, with no
link open, or the failure comes. -/
theorem Sound.exists_all (h : s.Sound link) :
    ∃ events after, s.all.1 = events.map .ok ++ (s.failure?.map .error).toList ∧
      Event.Balanced link events after ∧ (s.failure? = none → after = none) := by
  fun_induction all s generalizing link with
  | case1 s s' hnext =>
    have htells := tells_next h
    rw [hnext] at htells
    cases htells with
    | ended hnone hlink _ =>
      refine ⟨[], link, ?_, .nil, fun _ => hlink⟩
      rw [hnone]
      rfl
  | case2 s answer s' hnext _ es s'' hall ih =>
    have htells := tells_next h
    rw [hnext] at htells
    cases htells with
    | @event e link' _ he hsound _ hfailure =>
      obtain ⟨events, after, hevents, hbalanced, hafter⟩ := ih hsound
      rw [hall] at hevents
      rw [hfailure] at hevents hafter
      exact ⟨e :: events, after, congrArg (.ok e :: ·) hevents, he.append hbalanced, hafter⟩
    | failed hsome hover =>
      rw [all_of_over hover] at hall
      cases hall
      exact ⟨[], link, by rw [hsome]; rfl, .nil, fun hnone => by rw [hsome] at hnone; cases hnone⟩

end EventStream

namespace Converter

/-- **Events are balanced and come to an end.** Whatever state a converter is in, the answers to any
number of requests are balanced events, then the failure of its conversion if it fails, and then
nothing more. Where it does not fail, no link is left open; and where a link is open when the events
begin, they begin with that link. -/
theorem take_events (c : Converter) :
    ∃ events after, Event.Balanced none events after ∧ (c.run.failure = none → after = none) ∧
      (∀ target, c.writer.link = some target → events.head? = some (.linkStart target)) ∧
      ∀ n, (c.events.take n).1 =
        ((events.map Except.ok ++ (c.run.failure.map Except.error).toList).map some ++
          List.replicate n none).take n := by
  obtain ⟨events, after, hall, hbalanced, hafter⟩ := (EventStream.sound_events c).exists_all
  have hfailure : c.events.failure? = c.run.failure := rfl
  rw [hfailure] at hall hafter
  refine ⟨events, after, hbalanced, hafter, ?_, ?_⟩
  · intro target hlink
    -- the link is in the queue from the start
    have hpending : c.events.pending = [.linkStart target] := by
      rw [Converter.events, hlink]
      rfl
    rw [EventStream.all_eq, EventStream.next_eq, hpending] at hall
    cases events with
    | nil => cases hfail : c.run.failure <;> simp [hfail] at hall
    | cons e events =>
      rw [List.map_cons, List.cons_append] at hall
      obtain ⟨he, -⟩ := List.cons.inj hall
      rw [List.head?_cons, Except.ok.inj he]
  · intro n
    rw [EventStream.take_eq, hall]

end Converter

end BodyText
