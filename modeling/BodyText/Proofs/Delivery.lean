import BodyText.Proofs.Lines
import BodyText.Session

/-!
# How a body is delivered

The same bytes may reach a reader in segments of any size, with interrupted reads between them.
What matters is only what arrives, byte by byte, with the failures and the pauses at their places
(`Stream.arrivals`). Of all the ways to deliver the same arrivals one is the finest, each byte in a
segment of its own (`Stream.trickle`). A line that is taken from a stream is the line that is taken
from its trickle, and leaves the trickle of what it leaves (`takeLine_trickle`). Everything that a
converter does is done by way of such lines, so no operation can tell a stream from its trickle
(`Blind`), and no session can tell two deliveries of the same arrivals from each other.
-/

namespace BodyText

/-! ### What arrives -/

/-- One thing that arrives, however it is delivered. -/
inductive Arrival where
  /-- A byte. -/
  | byte (b : UInt8)
  /-- A read that fails. -/
  | failure (cause : String)
  /-- An input that seems to end. -/
  | pause
  deriving DecidableEq, Repr

/-- What arrives with a feed; an interrupted read brings nothing. -/
def Feed.arrivals : Feed → List Arrival
  | .segment bs => bs.map .byte
  | .interrupted => []
  | .failure cause => [.failure cause]
  | .pause => [.pause]

/-- The feed that brings one thing. -/
def Arrival.feed : Arrival → Feed
  | .byte b => .segment [b]
  | .failure cause => .failure cause
  | .pause => .pause

namespace Stream

/-- What arrives in a stream, in its order. -/
def arrivals (s : Stream) : List Arrival := s.flatMap Feed.arrivals

/-- The finest delivery of what arrives in a stream. -/
def trickle (s : Stream) : Stream := s.arrivals.map Arrival.feed

@[simp] theorem trickle_segment (bs : List UInt8) (s : Stream) :
    trickle (.segment bs :: s) = (bs.map fun b => Feed.segment [b]) ++ trickle s := by
  simp [trickle, arrivals, Feed.arrivals, Arrival.feed, Function.comp_def]

@[simp] theorem trickle_putBack (bs : List UInt8) (s : Stream) :
    trickle (putBack bs s) = (bs.map fun b => Feed.segment [b]) ++ trickle s := by
  cases bs with
  | nil => rfl
  | cons b bs => exact trickle_segment _ _

/-- Only the bytes of the arrivals are bytes to come. -/
theorem bytes_trickle (s : Stream) : s.trickle.bytes = s.bytes := by
  have single (bs : List UInt8) (t : Stream) :
      bytes ((bs.map fun b => Feed.segment [b]) ++ t) = bs ++ t.bytes := by
    induction bs with
    | nil => rfl
    | cons b bs ih => simp [bytes, ih]
  induction s with
  | nil => rfl
  | cons f s ih =>
    cases f with
    | segment bs => rw [trickle_segment, single, ih, bytes]
    | interrupted => exact ih
    | failure cause => exact ih
    | pause => exact ih

/-! ### Taking a line -/

/-- A line may take the bytes of a segment one by one. -/
theorem takeLine_singles {room : Nat} (hroom : 0 < room) (bs : List UInt8) (s : Stream) :
    takeLine room ((bs.map fun b => Feed.segment [b]) ++ s) =
      let taken := lineHead room bs
      if taken.length = room ∨ taken.getLast? = some lineEnd then
        (.ok taken, ((bs.drop taken.length).map fun b => Feed.segment [b]) ++ s)
      else
        match takeLine (room - taken.length) s with
        | (.ok more, s') => (.ok (taken ++ more), s')
        | (.error e, s') => (.error e, s') := by
  induction bs generalizing room with
  | nil =>
    have hnil : lineHead room [] = [] := by
      cases room <;> rfl
    have hstop : ¬ ((lineHead room []).length = room ∨
        (lineHead room []).getLast? = some lineEnd) := by
      rw [hnil, List.length_nil]
      simp only [List.getLast?_nil, reduceCtorEq, or_false]
      omega
    simp only [if_neg hstop]
    rw [hnil]
    simp only [List.map_nil, List.nil_append, List.length_nil, Nat.sub_zero]
    cases takeLine room s with
    | mk result s' => cases result <;> rfl
  | cons b bs ih =>
    obtain ⟨room, rfl⟩ := Nat.exists_eq_add_one.2 hroom
    rw [List.map_cons, List.cons_append, takeLine]
    by_cases hb : b = lineEnd
    · simp [lineHead, hb, putBack]
    · cases room with
      | zero => simp [lineHead, hb, putBack]
      | succ room =>
        have hlast (bs : List UInt8) :
            (b :: bs).getLast? = some lineEnd ↔ bs.getLast? = some lineEnd := by
          cases bs with
          | nil => simp [hb]
          | cons => simp
        have hgo : lineHead (room + 1 + 1) [b] = [b] := by simp [lineHead, hb]
        have htaken : lineHead (room + 1 + 1) (b :: bs) = b :: lineHead (room + 1) bs := by
          rw [lineHead, if_neg hb]
        have ih := ih (Nat.succ_pos room)
        simp only [hgo, htaken, List.length_cons, List.length_nil, Nat.zero_add,
          Nat.add_sub_cancel, Nat.add_right_cancel_iff, hlast, Nat.add_sub_add_right,
          List.drop_succ_cons]
        rw [if_neg (by simp), ih]
        by_cases hstop : (lineHead (room + 1) bs).length = room + 1 ∨
            (lineHead (room + 1) bs).getLast? = some lineEnd
        · simp only [if_pos hstop, List.singleton_append]
        · simp only [if_neg hstop]
          cases takeLine (room + 1 - (lineHead (room + 1) bs).length) s with
          | mk result s' => cases result <;> rfl

/-- Taking a line does not see how the stream is delivered. -/
theorem takeLine_trickle {room : Nat} (hroom : 0 < room) (s : Stream) :
    s.trickle.takeLine room = ((s.takeLine room).1, (s.takeLine room).2.trickle) := by
  fun_induction takeLine room s with
  | case1 => rfl
  | case2 => rfl
  | case3 room s ih => exact ih hroom
  | case4 => rfl
  | case5 room bs s taken hstop =>
    rw [trickle_segment, takeLine_singles hroom]
    simp only [show lineHead room bs = taken from rfl, if_pos hstop, trickle_putBack]
  | case6 room bs s taken hgo more s' htake ih =>
    have hlt : 0 < room - taken.length := by
      have hle : taken.length ≤ room := length_lineHead_le room bs
      have hne := (not_or.1 hgo).1
      omega
    rw [trickle_segment, takeLine_singles hroom]
    simp only [show lineHead room bs = taken from rfl, if_neg hgo, ih hlt, htake]
  | case7 room bs s taken hgo e s' htake ih =>
    have hlt : 0 < room - taken.length := by
      have hle : taken.length ≤ room := length_lineHead_le room bs
      have hne := (not_or.1 hgo).1
      omega
    rw [trickle_segment, takeLine_singles hroom]
    simp only [show lineHead room bs = taken from rfl, if_neg hgo, ih hlt, htake]

end Stream

/-! ### Reading a line -/

namespace Reader

/-- The reader with the finest delivery of its input. -/
def trickle (r : Reader) : Reader := { r with stream := r.stream.trickle }

/-- Reading a line does not see how the input is delivered. -/
theorem pull_trickle {r : Reader} (h : r.Roomy) :
    r.trickle.pull = (r.pull.1, r.pull.2.trickle) := by
  have hroom : 0 < r.limit - r.carry.length := Nat.sub_pos_of_lt h
  unfold pull
  simp only [trickle, Stream.takeLine_trickle hroom]
  cases r.stream.takeLine (r.limit - r.carry.length) with
  | mk result s =>
    cases result with
    | error e => rfl
    | ok taken =>
      simp only [settle, isCut]
      split <;> rfl

end Reader

/-! ### Operations that cannot tell -/

namespace Converter

/-- The converter with the finest delivery of its input. -/
def trickle (c : Converter) : Converter := { c with reader := c.reader.trickle }

/-- An operation that cannot tell how the input is delivered: it answers the same, and leaves the
same but for the delivery. -/
def Blind {α : Type} (f : Converter → α × Converter) : Prop :=
  ∀ c, c.reader.Roomy → f c.trickle = ((f c).1, (f c).2.trickle) ∧ (f c).2.reader.Roomy

theorem blind_refill : Blind refill := by
  intro c h
  have hpull := Reader.pull_trickle h
  have hroomy := Reader.roomy_of_pull h
  unfold refill
  simp only [trickle, hpull]
  cases hread : c.reader.pull with
  | mk result r =>
    rw [hread] at hroomy
    rcases result with e | _ | line <;> exact ⟨rfl, hroomy⟩

theorem blind_readUntil (enough : List Char → Bool) : Blind (readUntil enough) := by
  intro c h
  fun_induction readUntil enough c with
  | case1 c hc =>
    rw [readUntil_eq, if_pos (by exact hc)]
    exact ⟨rfl, h⟩
  | case2 c hc e c' hrefill =>
    obtain ⟨heq, hroomy⟩ := blind_refill c h
    rw [hrefill] at heq hroomy
    rw [readUntil_eq, if_neg (by exact hc), heq]
    exact ⟨rfl, hroomy⟩
  | case3 c hc c' hrefill =>
    obtain ⟨heq, hroomy⟩ := blind_refill c h
    rw [hrefill] at heq hroomy
    rw [readUntil_eq, if_neg (by exact hc), heq]
    exact ⟨rfl, hroomy⟩
  | case4 c hc c' hrefill _ ih =>
    obtain ⟨heq, hroomy⟩ := blind_refill c h
    rw [hrefill] at heq hroomy
    rw [readUntil_eq, if_neg (by exact hc), heq]
    exact ih hroomy

theorem blind_search (s : Search) : Blind (search s) := by
  intro c h
  rw [search_eq_readUntil, search_eq_readUntil]
  exact blind_readUntil s.occurs c h

/-- What is done to the text at hand first makes no difference to what can be told. -/
theorem Blind.withUnread {α : Type} {f : Converter → α × Converter} (hf : Blind f)
    (cs : List Char) : Blind fun c => f (c.withUnread cs) := by
  intro c h
  exact hf (c.withUnread cs) h

theorem blind_skipBlock (b : Block) : Blind (skipBlock · b) := by
  intro c h
  obtain ⟨heq, hroomy⟩ := blind_search (.marker b.closing) c h
  simp only [skipBlock, heq]
  cases hs : c.search (.marker b.closing) with
  | mk result c' =>
    rw [hs] at hroomy
    cases result <;> exact ⟨rfl, hroomy⟩

theorem blind_readTag : Blind readTag := by
  intro c h
  obtain ⟨heq, hroomy⟩ := blind_search (.char '>') c h
  simp only [readTag, heq]
  cases hs : c.search (.char '>') with
  | mk result c' =>
    rw [hs] at hroomy
    cases result with
    | error e => exact ⟨rfl, hroomy⟩
    | ok closed =>
      simp only [trickle]
      split <;> exact ⟨rfl, hroomy⟩

theorem blind_readReference : Blind readReference := by
  intro c h
  obtain ⟨heq, hroomy⟩ := blind_readUntil Reference.settled c h
  simp only [readReference, heq]
  cases hs : c.readUntil Reference.settled with
  | mk result c' =>
    rw [hs] at hroomy
    cases result with
    | error e => exact ⟨rfl, hroomy⟩
    | ok settled =>
      simp only [trickle]
      split <;> exact ⟨rfl, hroomy⟩

theorem blind_readItem (head : Head) : Blind (readItem · head) := by
  cases head with
  | block b rest => exact (blind_skipBlock b).withUnread rest
  | tag rest => exact blind_readTag.withUnread rest
  | ampersand rest => exact blind_readReference
  | blank d rest => exact fun c h => ⟨rfl, h⟩
  | char d rest => exact fun c h => ⟨rfl, h⟩

theorem blind_writeItem (item : Item) : Blind (writeItem · item) := by
  intro c h
  simp only [writeItem, trickle]
  split <;> exact ⟨rfl, h⟩

theorem blind_stepAtEnd : Blind stepAtEnd := by
  intro c h
  simp only [stepAtEnd]
  change (if c.writer.layout.text.isEmpty then _ else _) = _ ∧ _
  split
  · obtain ⟨heq, hroomy⟩ := blind_refill c h
    simp only [heq]
    cases hs : c.refill with
    | mk result c' =>
      rw [hs] at hroomy
      rcases result with e | _ | _ <;> exact ⟨rfl, hroomy⟩
  · exact ⟨rfl, h⟩

theorem blind_step : Blind step := by
  intro c h
  have hunread : c.trickle.unread = c.unread := rfl
  rw [step, step, hunread]
  cases Head.of? c.unread with
  | none => exact blind_stepAtEnd c h
  | some head =>
    obtain ⟨heq, hroomy⟩ := blind_readItem head c h
    dsimp only at heq hroomy
    simp only [heq]
    cases hs : c.readItem head with
    | mk result c' =>
      rw [hs] at hroomy
      cases result with
      | error e => exact ⟨rfl, hroomy⟩
      | ok item =>
        obtain ⟨heq', hroomy'⟩ := blind_writeItem item c' hroomy
        dsimp only at heq' hroomy'
        simp only [heq']
        exact ⟨trivial, hroomy'⟩

theorem blind_advance : Blind advance := by
  intro c h
  fun_induction advance c with
  | case1 c e c' hstep =>
    obtain ⟨heq, hroomy⟩ := blind_step c h
    rw [hstep] at heq hroomy
    rw [advance_eq, heq]
    exact ⟨rfl, hroomy⟩
  | case2 c k c' hstep =>
    obtain ⟨heq, hroomy⟩ := blind_step c h
    rw [hstep] at heq hroomy
    rw [advance_eq, heq]
    exact ⟨rfl, hroomy⟩
  | case3 c c' hstep =>
    obtain ⟨heq, hroomy⟩ := blind_step c h
    rw [hstep] at heq hroomy
    rw [advance_eq, heq]
    exact ⟨rfl, hroomy⟩
  | case4 c c' hstep _ ih =>
    obtain ⟨heq, hroomy⟩ := blind_step c h
    rw [hstep] at heq hroomy
    rw [advance_eq, heq]
    exact ih hroomy

theorem blind_next : Blind next := fun c h => blind_advance c.fresh h

end Converter

/-! ### Events -/

namespace EventStream

/-- The events with the finest delivery of their input. -/
def trickle (s : EventStream) : EventStream := { s with converter := s.converter.trickle }

@[simp] theorem trickle_pending (s : EventStream) : s.trickle.pending = s.pending := rfl

@[simp] theorem trickle_finished (s : EventStream) : s.trickle.finished = s.finished := rfl

@[simp] theorem trickle_converter (s : EventStream) :
    s.trickle.converter = s.converter.trickle := rfl

theorem trickle_queue (s : EventStream) (k : Chunk) :
    s.trickle.queue k = (s.queue k).trickle := by
  rw [queue, queue, apply_ite trickle, apply_ite trickle]
  rfl

/-- The next event does not tell how the input is delivered. -/
theorem next_trickle {s : EventStream} (h : s.converter.reader.Roomy) :
    s.trickle.next = (s.next.1, s.next.2.trickle) ∧ s.next.2.converter.reader.Roomy := by
  fun_induction next s with
  | case1 s e later hpending =>
    rw [next_eq, trickle_pending, hpending]
    exact ⟨rfl, h⟩
  | case2 s hpending hfinished =>
    rw [next_eq, trickle_pending, hpending]
    simp only [trickle_finished, hfinished, if_true]
    exact ⟨trivial, h⟩
  | case3 s hpending hfinished e c hnext =>
    obtain ⟨heq, hroomy⟩ := Converter.blind_next s.converter h
    rw [hnext] at heq hroomy
    rw [next_eq, trickle_pending, hpending]
    simp only [trickle_finished, if_neg hfinished, trickle_converter, heq]
    exact ⟨rfl, hroomy⟩
  | case4 s hpending hfinished c hnext _ ih =>
    obtain ⟨heq, hroomy⟩ := Converter.blind_next s.converter h
    rw [hnext] at heq hroomy
    rw [next_eq, trickle_pending, hpending]
    simp only [trickle_finished, if_neg hfinished, trickle_converter, heq]
    rw [hpending] at ih
    exact ih hroomy
  | case5 s hpending hfinished k c hnext _ ih =>
    obtain ⟨heq, hroomy⟩ := Converter.blind_next s.converter h
    rw [hnext] at heq hroomy
    rw [next_eq, trickle_pending, hpending]
    simp only [trickle_finished, if_neg hfinished, trickle_converter, heq]
    rw [queue_converter, ← trickle_queue, hpending] at ih
    exact ih hroomy

/-- Any number of events does not tell how the input is delivered. -/
theorem take_trickle (n : Nat) {s : EventStream} (h : s.converter.reader.Roomy) :
    s.trickle.take n = ((s.take n).1, (s.take n).2.trickle) ∧
      (s.take n).2.converter.reader.Roomy := by
  induction n generalizing s with
  | zero => exact ⟨rfl, h⟩
  | succ n ih =>
    obtain ⟨heq, hroomy⟩ := next_trickle h
    obtain ⟨heq', hroomy'⟩ := ih hroomy
    simp only [take, heq, heq']
    exact ⟨trivial, hroomy'⟩

/-- All the events together do not tell how the input is delivered. -/
theorem all_trickle {s : EventStream} (h : s.converter.reader.Roomy) :
    s.trickle.all = (s.all.1, s.all.2.trickle) ∧ s.all.2.converter.reader.Roomy := by
  fun_induction all s with
  | case1 s s' hnext =>
    obtain ⟨heq, hroomy⟩ := next_trickle h
    rw [hnext] at heq hroomy
    rw [all_eq, heq]
    exact ⟨rfl, hroomy⟩
  | case2 s e s' hnext _ es s'' hall ih =>
    obtain ⟨heq, hroomy⟩ := next_trickle h
    rw [hnext] at heq hroomy
    obtain ⟨heq', hroomy'⟩ := ih hroomy
    rw [hall] at heq' hroomy'
    rw [all_eq, heq]
    simp only [heq']
    exact ⟨trivial, hroomy'⟩

end EventStream

/-! ### Sessions -/

namespace Converter

theorem blind_callEvents (count : Option Nat) : Blind (callEvents · count) := by
  intro c h
  cases count with
  | none =>
    obtain ⟨heq, hroomy⟩ := EventStream.all_trickle (s := c.events) h
    simp only [callEvents]
    rw [show c.trickle.events = c.events.trickle from rfl, heq]
    exact ⟨rfl, hroomy⟩
  | some n =>
    obtain ⟨heq, hroomy⟩ := EventStream.take_trickle n (s := c.events) h
    simp only [callEvents]
    rw [show c.trickle.events = c.events.trickle from rfl, heq]
    exact ⟨rfl, hroomy⟩

/-- A session has the same answers with the finest delivery of its input. -/
theorem session_trickle (calls : List Call) {c : Converter} (h : c.reader.Roomy) :
    c.trickle.session calls = c.session calls := by
  induction calls generalizing c with
  | nil => rfl
  | cons call calls ih =>
    cases call with
    | next =>
      obtain ⟨heq, hroomy⟩ := blind_next c h
      simp only [session, callNext, heq, ih hroomy]
      rfl
    | events count =>
      obtain ⟨heq, hroomy⟩ := blind_callEvents count c h
      dsimp only at heq hroomy
      simp only [session, heq, ih hroomy]
      rfl
    | diagnostics =>
      simp only [session, ih h]
      rfl
    | finish =>
      simp only [session]
      rw [← c.reader.stream.bytes_trickle]
      rfl

/-- **Delivery cannot be told**: two streams in which the same bytes, failures and pauses arrive
in the same order have the same answers to every call of every session, and the same bytes are left
unread, however they are cut into segments and wherever reads are interrupted. -/
theorem session_eq_of_arrivals_eq {stream stream' : Stream}
    (h : stream.arrivals = stream'.arrivals) (charset : Charset) (config : Config)
    (calls : List Call) :
    (start stream charset config).session calls = (start stream' charset config).session calls := by
  have hroomy (s : Stream) : (start s charset config).reader.Roomy := Reader.roomy_start ..
  have htrickle : (start stream charset config).trickle = (start stream' charset config).trickle := by
    simp only [start, trickle, Reader.start, Reader.trickle, Stream.trickle, h]
  rw [← session_trickle calls (hroomy stream), htrickle, session_trickle calls (hroomy stream')]

/-- The same bytes, with a line end at the end of a segment and inside one, and a failure and a pause
behind them. -/
theorem session_eq_of_two_deliveries :
    Stream.arrivals [.segment [0x61, 0x0A], .segment [0x62], .interrupted, .failure "lost", .pause,
        .segment [0x63, 0x64]] =
      Stream.arrivals [.interrupted, .segment [0x61], .segment [0x0A, 0x62], .failure "lost",
        .pause, .segment [0x63], .interrupted, .segment [0x64]] ∧
      (start [.segment [0x61, 0x0A], .segment [0x62], .interrupted, .failure "lost", .pause,
          .segment [0x63, 0x64]] .utf8 { lineLimit := 1 }).session
          [.next, .events (some 2), .next, .diagnostics, .finish] =
        (start [.interrupted, .segment [0x61], .segment [0x0A, 0x62], .failure "lost", .pause,
          .segment [0x63], .interrupted, .segment [0x64]] .utf8 { lineLimit := 1 }).session
          [.next, .events (some 2), .next, .diagnostics, .finish] := by
  have harrivals : Stream.arrivals [.segment [0x61, 0x0A], .segment [0x62], .interrupted,
        .failure "lost", .pause, .segment [0x63, 0x64]] =
      Stream.arrivals [.interrupted, .segment [0x61], .segment [0x0A, 0x62], .failure "lost",
        .pause, .segment [0x63], .interrupted, .segment [0x64]] := by decide
  exact ⟨harrivals, session_eq_of_arrivals_eq harrivals _ _ _⟩

end Converter

end BodyText
