import BodyText.Converter.Run
import BodyText.Proofs.Marks

/-!
# Turns

A call for the next chunk runs nested loops: one over the items of a body, and inside it one for
each block, tag and reference that is read on for. Here they are taken apart into turns
(`Converter.turn`). A turn reads one line at most. Between two turns a converter stands between two
items, or reads on for something that an item needs (`Quest`).

A call comes to what its turns come to one after the other, and there is an end to them
(`Converter.answers_next`); nothing else comes of the same turns (`Converter.Answers.unique`). So
what holds of a turn holds of a call by induction on its turns, with no word of the loops.
-/

namespace BodyText

/-! ### Reading on -/

/-- What is read on for, once the reading of an item has begun. -/
inductive Quest where
  /-- The closing of a block. -/
  | closing (b : Block)
  /-- The `>` of a tag. -/
  | tagEnd
  /-- Enough to tell what a `&` is. -/
  | reference
  deriving DecidableEq, Repr

namespace Quest

/-- Whether a text is enough. -/
def met : Quest → List Char → Bool
  | closing b => (Search.marker b.closing).occurs
  | tagEnd => (Search.char '>').occurs
  | reference => Reference.settled

/-- The item that a text makes which is enough, or to which nothing more comes, and the text after
the item. -/
def item : Quest → List Char → Item × List Char
  | closing b, cs => (.skipped, (b.closed? cs).getD [])
  | tagEnd, cs =>
    match splitAt? '>' cs with
    | some (text, after) => (.tag text, after)
    | none => (.unclosed cs, cs)
  | reference, cs =>
    match Reference.token? cs with
    | some (token, after) => (.reference token, after)
    | none => (.char '&', cs.drop 1)

/-- The text after an item is an end of the text at hand. -/
theorem suffix_item (q : Quest) (cs : List Char) : (q.item cs).2 <:+ cs := by
  cases q with
  | closing b =>
    change (b.closed? cs).getD [] <:+ cs
    cases hclosed : b.closed? cs with
    | none => exact List.nil_suffix
    | some after => exact suffix_of_past? hclosed
  | tagEnd =>
    rw [item]
    split
    · rename_i text after hsplit
      rw [eq_append_of_splitAt? hsplit]
      exact ⟨text ++ ['>'], by simp⟩
    · exact List.suffix_rfl
  | reference =>
    rw [item]
    split
    · rename_i token after htoken
      rw [(Reference.eq_append_of_tokenWithin? htoken).2]
      exact List.suffix_append token after
    · exact List.drop_suffix 1 cs

end Quest

namespace Converter

/-- Reads on for something, and takes the item off the text that is then at hand. -/
def readOn (c : Converter) (q : Quest) : Except ReadError Item × Converter :=
  match c.readUntil q.met with
  | (.error e, c') => (.error e, c')
  | (.ok _, c') => (.ok (q.item c'.unread).1, c'.withUnread (q.item c'.unread).2)

theorem skipBlock_eq_readOn (c : Converter) (b : Block) :
    c.skipBlock b = c.readOn (.closing b) := by
  rw [skipBlock, search_eq_readUntil, readOn]
  rfl

theorem readTag_eq_readOn (c : Converter) : c.readTag = c.readOn .tagEnd := by
  rw [readTag, search_eq_readUntil, readOn,
    show Quest.tagEnd.met = (Search.char '>').occurs from rfl]
  generalize hread : c.readUntil (Search.char '>').occurs = result
  obtain ⟨answer, c'⟩ := result
  cases answer with
  | error e => rfl
  | ok closed =>
    have hclosed : c'.unread.contains '>' = closed := enough_of_readUntil hread
    have hsplit : (if closed = true then splitAt? '>' c'.unread else none) =
        splitAt? '>' c'.unread := by
      cases closed with
      | true => rfl
      | false => exact (splitAt?_eq_none_iff.2 (by simpa using hclosed)).symm
    simp only [hsplit, Quest.item]
    cases splitAt? '>' c'.unread <;> rfl

theorem readReference_eq_readOn (c : Converter) : c.readReference = c.readOn .reference := by
  rw [readReference, readOn, show Quest.reference.met = Reference.settled from rfl]
  obtain ⟨answer, c'⟩ := c.readUntil Reference.settled
  cases answer with
  | error e => rfl
  | ok settled =>
    simp only [Quest.item]
    cases Reference.token? c'.unread <;> rfl

/-! ### One turn -/

/-- Where a converter stands between two turns. -/
inductive Phase where
  /-- Between two items. -/
  | between
  /-- In an item that needs more than the text at hand. -/
  | seeking (q : Quest)
  deriving DecidableEq, Repr

/-- What a turn comes to. -/
inductive Move where
  /-- There are more turns. -/
  | onward (p : Phase) (c : Converter)
  /-- The call is answered. -/
  | answer (result : Except ReadError (Option Chunk)) (c : Converter)

/-- The converter that a move leaves. -/
def Move.converter : Move → Converter
  | onward _ c | answer _ c => c

/-- Writes an item, which may answer the call. -/
def put (c : Converter) (item : Item) : Move :=
  match c.writer.write item with
  | (some k, w) => .answer (.ok (some k)) { c with writer := w }
  | (none, w) => .onward .between { c with writer := w }

/-- Takes an item off the text at hand, and writes it. -/
def close (c : Converter) (q : Quest) : Move :=
  (c.withUnread (q.item c.unread).2).put (q.item c.unread).1

/-- Whether nothing can be done with the text at hand alone. -/
def wants (c : Converter) : Phase → Bool
  | .between => c.unread.isEmpty && c.writer.layout.text.isEmpty
  | .seeking q => !q.met c.unread

/-- What is done with the text at hand. -/
def act (c : Converter) : Phase → Move
  | .between =>
    match Head.of? c.unread with
    | none => .answer (.ok (some c.cut.1)) c.cut.2
    | some (.block b rest) => .onward (.seeking (.closing b)) (c.withUnread rest)
    | some (.tag rest) => .onward (.seeking .tagEnd) (c.withUnread rest)
    | some (.ampersand _) => .onward (.seeking .reference) c
    | some (.blank d rest) => (c.withUnread rest).put (.blank d)
    | some (.char d rest) => (c.withUnread rest).put (.char d)
  | .seeking q => c.close q

/-- What is done when a line more is needed and there is none. -/
def actAtEnd (c : Converter) : Phase → Move
  | .between => .answer (.ok none) c.noteEnd
  | .seeking q => c.close q

/-- One turn: a line more is read where one is needed, and something is done with the text at hand
where none is. -/
def turn (c : Converter) (p : Phase) : Move :=
  if c.wants p then
    match c.refill with
    | (.error e, c') => .answer (.error e) c'
    | (.ok true, c') => .onward p c'
    | (.ok false, c') => c'.actAtEnd p
  else c.act p

/-- What a turn may be. -/
inductive Takes (c : Converter) (p : Phase) : Move → Prop
  /-- The text at hand is enough. -/
  | act : c.wants p = false → Takes c p (c.act p)
  /-- A line more is needed, and the read of it fails. -/
  | failed {e : ReadError} {c' : Converter} : c.wants p = true → c.refill = (.error e, c') →
      Takes c p (.answer (.error e) c')
  /-- A line more is needed, and read. -/
  | line {c' : Converter} : c.wants p = true → c.refill = (.ok true, c') →
      Takes c p (.onward p c')
  /-- A line more is needed, and there is none. -/
  | atEnd {c' : Converter} : c.wants p = true → c.refill = (.ok false, c') →
      Takes c p (c'.actAtEnd p)

/-- A turn is one of these, and each of these is the turn. -/
theorem turn_eq_iff {c : Converter} {p : Phase} {move : Move} :
    c.turn p = move ↔ c.Takes p move := by
  constructor
  · rintro rfl
    rw [turn]
    split
    · rename_i hwants
      split
      · rename_i hrefill
        exact .failed hwants hrefill
      · rename_i hrefill
        exact .line hwants hrefill
      · rename_i hrefill
        exact .atEnd hwants hrefill
    · rename_i hwants
      exact .act (by simpa using hwants)
  · intro h
    cases h with
    | act hwants =>
      rw [turn, hwants]
      rfl
    | failed hwants hrefill => rw [turn, if_pos hwants, hrefill]
    | line hwants hrefill => rw [turn, if_pos hwants, hrefill]
    | atEnd hwants hrefill => rw [turn, if_pos hwants, hrefill]

/-! ### The turns of a call -/

/-- From a phase on, a number of turns come to an answer. -/
inductive Answers :
    Nat → Phase → Converter → Except ReadError (Option Chunk) × Converter → Prop
  /-- The last turn answers the call. -/
  | last {p : Phase} {c c' : Converter} {result : Except ReadError (Option Chunk)} :
      c.turn p = .answer result c' → Answers 1 p c (result, c')
  /-- A turn is followed by others. -/
  | onward {n : Nat} {p p' : Phase} {c c' : Converter}
      {answer : Except ReadError (Option Chunk) × Converter} :
      c.turn p = .onward p' c' → Answers n p' c' answer → Answers (n + 1) p c answer

/-- Turns come to one answer only. -/
theorem Answers.unique {n m : Nat} {p : Phase} {c : Converter}
    {answer answer' : Except ReadError (Option Chunk) × Converter} (h : Answers n p c answer)
    (h' : Answers m p c answer') : answer = answer' := by
  induction h generalizing m with
  | last hturn =>
    cases h' with
    | last hturn' =>
      rw [hturn] at hturn'
      cases hturn'
      rfl
    | onward hturn' _ =>
      rw [hturn] at hturn'
      cases hturn'
  | onward hturn _ ih =>
    cases h' with
    | last hturn' =>
      rw [hturn] at hturn'
      cases hturn'
    | onward hturn' hmore =>
      rw [hturn] at hturn'
      cases hturn'
      exact ih hmore

/-- A move that leads to an answer, at once or by more turns. -/
inductive Move.Leads (answer : Except ReadError (Option Chunk) × Converter) : Move → Prop
  /-- The call is answered. -/
  | here {result : Except ReadError (Option Chunk)} {c : Converter} : answer = (result, c) →
      Leads answer (.answer result c)
  /-- More turns follow. -/
  | later {n : Nat} {p : Phase} {c : Converter} : Answers n p c answer →
      Leads answer (.onward p c)

theorem Move.Leads.exists_answers {answer : Except ReadError (Option Chunk) × Converter}
    {p : Phase} {c : Converter} {move : Move} (h : Leads answer move) (hturn : c.turn p = move) :
    ∃ n, Answers n p c answer := by
  cases h with
  | here hanswer => exact ⟨1, hanswer ▸ .last hturn⟩
  | later hmore => exact ⟨_, .onward hturn hmore⟩

/-- Reading on, turn by turn. -/
theorem exists_answers_readOn (q : Quest) {c : Converter}
    {answer : Except ReadError (Option Chunk) × Converter}
    (herror : ∀ e c', c.readOn q = (.error e, c') → answer = (.error e, c'))
    (hitem : ∀ item c', c.readOn q = (.ok item, c') → (c'.put item).Leads answer) :
    ∃ n, Answers n (.seeking q) c answer := by
  unfold readOn at herror hitem
  have wants_seeking {c : Converter} (hmet : ¬q.met c.unread = true) :
      c.wants (.seeking q) = true := by
    simpa [wants] using hmet
  fun_induction readUntil q.met c with
  | case1 c hmet =>
    have hwants : c.wants (.seeking q) = false := by
      simpa [wants] using hmet
    exact (hitem _ _ rfl).exists_answers (turn_eq_iff.2 (.act hwants))
  | case2 c hmet e c' hrefill =>
    have hturn := turn_eq_iff.2 (.failed (wants_seeking hmet) hrefill)
    exact (Move.Leads.here (herror e c' rfl)).exists_answers hturn
  | case3 c hmet c' hrefill =>
    have hturn := turn_eq_iff.2 (.atEnd (wants_seeking hmet) hrefill)
    exact (hitem _ _ rfl).exists_answers hturn
  | case4 c hmet c' hrefill _ ih =>
    obtain ⟨n, hmore⟩ := ih herror hitem
    have hturn := turn_eq_iff.2 (.line (wants_seeking hmet) hrefill)
    exact (Move.Leads.later hmore).exists_answers hturn

/-- What a step between two items leads to. -/
inductive StepLeads (answer : Except ReadError (Option Chunk) × Converter) :
    Except ReadError Turn × Converter → Prop
  /-- A failure. -/
  | failed {e : ReadError} {c : Converter} : answer = (.error e, c) →
      StepLeads answer (.error e, c)
  /-- A chunk. -/
  | chunk {k : Chunk} {c : Converter} : answer = (.ok (some k), c) →
      StepLeads answer (.ok (.chunk k), c)
  /-- The end of the input. -/
  | ended {c : Converter} : answer = (.ok none, c) → StepLeads answer (.ok .ended, c)
  /-- What the turns that follow come to. -/
  | more {n : Nat} {c : Converter} : Answers n .between c answer → StepLeads answer (.ok .more, c)

/-- Writing an item leads to what the step leads to that wrote it. -/
theorem StepLeads.leads_put {c : Converter} {item : Item}
    {answer : Except ReadError (Option Chunk) × Converter}
    (h : StepLeads answer (.ok (c.writeItem item).1, (c.writeItem item).2)) :
    (c.put item).Leads answer := by
  rw [writeItem] at h
  rw [put]
  generalize c.writer.write item = result at h
  obtain ⟨k?, w⟩ := result
  cases k? with
  | none =>
    cases h with
    | more hmore => exact .later hmore
  | some k =>
    cases h with
    | chunk hanswer => exact .here hanswer

/-- A step with no text at hand is one turn. -/
theorem StepLeads.leads_stepAtEnd {c : Converter}
    {answer : Except ReadError (Option Chunk) × Converter} (hnil : c.unread = [])
    (h : StepLeads answer c.stepAtEnd) : (c.turn .between).Leads answer := by
  have hwants : c.writer.layout.text.isEmpty = c.wants .between := by
    rw [wants, hnil]
    rfl
  rw [stepAtEnd, hwants] at h
  generalize hmove : c.turn .between = move
  cases turn_eq_iff.1 hmove with
  | act henough =>
    rw [if_neg (by simp [henough])] at h
    rw [act, hnil]
    cases h with
    | chunk hanswer => exact .here hanswer
  | failed hneeds hrefill =>
    rw [if_pos hneeds, hrefill] at h
    cases h with
    | failed hanswer => exact .here hanswer
  | line hneeds hrefill =>
    rw [if_pos hneeds, hrefill] at h
    cases h with
    | more hmore => exact .later hmore
  | atEnd hneeds hrefill =>
    rw [if_pos hneeds, hrefill] at h
    cases h with
    | ended hanswer => exact .here hanswer

/-- What a step leads to that reads on for an item. -/
theorem StepLeads.exists_answers_readOn {c : Converter} {q : Quest}
    {answer : Except ReadError (Option Chunk) × Converter}
    (h : StepLeads answer
      (match c.readOn q with
      | (.error e, c') => (.error e, c')
      | (.ok item, c') =>
        match c'.writeItem item with
        | (turn, c'') => (.ok turn, c''))) :
    ∃ n, Answers n (.seeking q) c answer := by
  refine Converter.exists_answers_readOn q ?_ ?_
  · intro e c' hread
    rw [hread] at h
    cases h with
    | failed hanswer => exact hanswer
  · intro item c' hread
    rw [hread] at h
    exact h.leads_put

/-- A step, turn by turn. -/
theorem StepLeads.exists_answers {c : Converter}
    {answer : Except ReadError (Option Chunk) × Converter} (h : StepLeads answer c.step) :
    ∃ n, Answers n .between c answer := by
  rw [step] at h
  cases hhead : Head.of? c.unread with
  | none =>
    rw [hhead] at h
    exact (h.leads_stepAtEnd (Head.of?_eq_none_iff.1 hhead)).exists_answers rfl
  | some head =>
    rw [hhead] at h
    have hwants : c.wants .between = false := by
      have hne : c.unread ≠ [] := fun hnil => by simp [hnil, Head.of?] at hhead
      simp [wants, hne]
    have hturn : c.turn .between = c.act .between := turn_eq_iff.2 (.act hwants)
    rw [act, hhead] at hturn
    cases head with
    | block b rest =>
      simp only [readItem, skipBlock_eq_readOn] at h
      obtain ⟨n, hmore⟩ := h.exists_answers_readOn
      exact ⟨n + 1, .onward hturn hmore⟩
    | tag rest =>
      simp only [readItem, readTag_eq_readOn] at h
      obtain ⟨n, hmore⟩ := h.exists_answers_readOn
      exact ⟨n + 1, .onward hturn hmore⟩
    | ampersand rest =>
      simp only [readItem, readReference_eq_readOn] at h
      obtain ⟨n, hmore⟩ := h.exists_answers_readOn
      exact ⟨n + 1, .onward hturn hmore⟩
    | blank d rest => exact h.leads_put.exists_answers hturn
    | char d rest => exact h.leads_put.exists_answers hturn

/-- Stepping on to the next chunk, turn by turn. -/
theorem answers_advance (c : Converter) : ∃ n, Answers n .between c c.advance := by
  fun_induction advance c with
  | case1 c e c' hstep => exact StepLeads.exists_answers (hstep ▸ .failed rfl)
  | case2 c k c' hstep => exact StepLeads.exists_answers (hstep ▸ .chunk rfl)
  | case3 c c' hstep => exact StepLeads.exists_answers (hstep ▸ .ended rfl)
  | case4 c c' hstep _ ih =>
    obtain ⟨n, hmore⟩ := ih
    exact StepLeads.exists_answers (hstep ▸ .more hmore)

/-- **A call for the next chunk is answered** by its turns, after a number of them. -/
theorem answers_next (c : Converter) : ∃ n, Answers n .between c.fresh c.next :=
  answers_advance c.fresh

theorem next_eq_of_answers {n : Nat} {c : Converter}
    {answer : Except ReadError (Option Chunk) × Converter}
    (h : Answers n .between c.fresh answer) : c.next = answer := by
  obtain ⟨m, hnext⟩ := answers_next c
  exact hnext.unique h

end Converter

end BodyText
