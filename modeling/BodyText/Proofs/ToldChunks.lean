import BodyText.Proofs.Events

/-!
# The events of chunks

What a stream of events tells is told by the chunks of the conversion alone, each of them with the
link that is open after it (`Chunk.events`): the text of a chunk, and where a link boundary ended
it, the end of the link before and the start of the one after. Behind the events of all chunks
comes the end of a link that is still open, or the failure (`Converter.all_events`).
-/

namespace BodyText

/-- The events that tell of a link boundary, by the links before and after it. -/
def Event.crossing (before after : Option String) : List Event :=
  (if before.isSome then [.linkEnd] else []) ++ (after.map Event.linkStart).toList

/-- The events that tell of a chunk, by the link that is open after it. -/
def Chunk.events (k : Chunk) (after : Option String) : List Event :=
  EventStream.ofText k.text ++ if k.boundary?.isSome then Event.crossing k.link after else []

namespace Converter

namespace Run

/-- The events of the chunks. -/
def events (r : Run) : List Event := r.chunks.flatMap fun k => k.1.events k.2.writer.link

/-- What is told behind the events of the chunks: the failure, or the end of the open link. -/
def epilogue (r : Run) : List (Except ReadError Event) :=
  match r.failure with
  | some e => [.error e]
  | none => if r.final.writer.link.isSome then [.ok .linkEnd] else []

end Run

/-- The stream of events when the open link was told already. -/
def eventsOn (c : Converter) : EventStream where
  converter := c
  inLink := c.writer.link.isSome

end Converter

/-! ### One chunk -/

/-- A chunk makes three events at most. -/
theorem Chunk.length_events_le (k : Chunk) (after : Option String) :
    (k.events after).length ≤ 3 := by
  have htext : (EventStream.ofText k.text).length ≤ 1 := by
    unfold EventStream.ofText
    split <;> simp
  have hcrossing : (Event.crossing k.link after).length ≤ 2 := by
    unfold Event.crossing
    cases k.link <;> cases after <;> simp
  rw [Chunk.events, List.length_append]
  split
  · omega
  · rw [List.length_nil]
    omega

namespace EventStream

/-- A chunk is queued as the events that tell of it. -/
theorem pending_queue {s : EventStream} {k : Chunk} (hpending : s.pending = [])
    (hinLink : s.inLink = k.link.isSome) (h : k.Leaves s.converter.writer.link) :
    (s.queue k).pending = k.events s.converter.writer.link ∧
      (s.queue k).inLink = s.converter.writer.link.isSome := by
  generalize hlink : s.converter.writer.link = link at h
  cases h with
  | opened hboundary =>
    have hopens := Chunk.opensLink_of_boundary? hboundary
    simp [queue, Chunk.events, Event.crossing, hopens, hboundary, hpending, hinLink, hlink]
  | closed hboundary =>
    obtain ⟨hopens, hcloses⟩ := Chunk.closesLink_of_boundary? hboundary
    cases hk : k.link <;>
      simp [queue, Chunk.events, Event.crossing, hopens, hcloses, hboundary, hpending, hinLink, hk]
  | within hboundary _ =>
    obtain ⟨hopens, hcloses⟩ := Chunk.not_link_of_boundary? hboundary
    simp [queue, Chunk.events, hopens, hcloses, hboundary, hpending, hinLink]

/-! ### All chunks -/

/-- What is in the queue is told first. -/
theorem all_of_pending (s : EventStream) :
    s.all.1 = s.pending.map .ok ++ ({ s with pending := [] } : EventStream).all.1 := by
  obtain ⟨c, pending, inLink, finished⟩ := s
  induction pending with
  | nil => rfl
  | cons e later ih =>
    rw [all_eq, next_eq]
    exact congrArg (Except.ok e :: ·) ih

/-- Streams with the same next event have the same events. -/
theorem all_congr {s s' : EventStream} (h : s.next = s'.next) : s.all = s'.all := by
  rw [all_eq, all_eq, h]

end EventStream

namespace Converter

/-- A request when nothing is queued comes to the next chunk. -/
theorem next_eventsOn (c : Converter) :
    c.eventsOn.next =
      match c.next with
      | (.error e, c') => (some (.error e), ⟨c', [], c.writer.link.isSome, true⟩)
      | (.ok none, c') => (EventStream.mk c' [] c.writer.link.isSome false).finish.next
      | (.ok (some k), c') => ((EventStream.mk c' [] c.writer.link.isSome false).queue k).next := by
  rw [EventStream.next_eq]
  rfl

/-- The events of a conversion are those of its chunks, when the open link was told already. -/
theorem all_eventsOn (c : Converter) :
    c.eventsOn.all.1 = c.run.events.map .ok ++ c.run.epilogue := by
  rw [run_eq]
  fun_induction run c with
  | case1 c e c' hnext =>
    rw [EventStream.all_eq, next_eventsOn, hnext]
    change Except.error e :: _ = _
    rw [EventStream.all_of_over ⟨rfl, rfl⟩]
    rfl
  | case2 c c' hnext =>
    have hlinks := c.links_next
    have hsame := next_eventsOn c
    rw [hnext] at hlinks hsame
    cases hlinks with
    | ended hlink =>
      rw [EventStream.all_congr hsame, EventStream.all_of_pending,
        EventStream.all_of_over ⟨rfl, rfl⟩, List.append_nil, hnext]
      simp only [Run.events, Run.epilogue, EventStream.finish, hlink, List.flatMap_nil,
        List.map_nil, List.nil_append]
      split <;> rfl
  | case3 c k c' hnext _ _ ih =>
    have hlinks := c.links_next
    have hsame := next_eventsOn c
    rw [hnext] at hlinks hsame
    cases hlinks with
    | chunk hk hleaves =>
      obtain ⟨hpending, hinLink⟩ := EventStream.pending_queue
        (s := ⟨c', [], c.writer.link.isSome, false⟩) rfl (by rw [hk]) hleaves
      -- what is told behind the events of the chunk is what the rest of the conversion tells
      have hrest : EventStream.mk
          ((EventStream.mk c' [] c.writer.link.isSome false).queue k).converter []
          ((EventStream.mk c' [] c.writer.link.isSome false).queue k).inLink
          ((EventStream.mk c' [] c.writer.link.isSome false).queue k).finished = c'.eventsOn := by
        rw [hinLink, EventStream.queue_converter, EventStream.queue_finished]
        rfl
      rw [EventStream.all_congr hsame, EventStream.all_of_pending, hrest, ih, hpending, hnext,
        ← run_eq]
      simp only [Run.events, List.flatMap_cons, List.map_append, List.append_assoc]
      rfl

/-- **The events of a conversion**, in any state: the start of the open link, the events of its
chunks, and then its failure or the end of a link that is still open. -/
theorem all_events (c : Converter) :
    c.events.all.1 =
      (c.writer.link.map Event.linkStart).toList.map .ok ++
        (c.run.events.map .ok ++ c.run.epilogue) := by
  rw [EventStream.all_of_pending, ← all_eventsOn]
  rfl

/-- There are no more than three events for each chunk, and two for the link that is open before
and for the end. -/
theorem length_all_events_le (c : Converter) :
    c.events.all.1.length ≤ 3 * c.run.chunks.length + 2 := by
  have hfirst : (c.writer.link.map Event.linkStart).toList.length ≤ 1 := by
    cases c.writer.link <;> simp
  have hlast : c.run.epilogue.length ≤ 1 := by
    unfold Run.epilogue
    split
    · exact Nat.le_refl 1
    · split <;> simp
  have hchunks : c.run.events.length ≤ 3 * c.run.chunks.length := by
    unfold Run.events
    induction c.run.chunks with
    | nil => exact Nat.le_refl 0
    | cons k ks ih =>
      have hk := k.1.length_events_le k.2.writer.link
      rw [List.flatMap_cons, List.length_append, List.length_cons]
      omega
  rw [all_events, List.length_append, List.length_append, List.length_map, List.length_map]
  omega

end Converter

end BodyText
