import BodyText.Proofs.MixedSessions
import BodyText.Proofs.References
import BodyText.Proofs.Scanner
import BodyText.Proofs.Turns

/-!
# The cursor is sound

A scanner goes through a body turn by turn as the converter does (`Scanner.exists_turn?`): what is behind
its cursor is the text that the converter has at hand (`Scanner.Shows`), and what it looks for among the
bytes, from the offset on that it looked to before, is what the converter looks for among the characters
(`Scanner.Phase.Shows`). So none of its checks fails, in any state that calls for chunks or events lead to
(`Scanner.cursor_sound`).
-/

namespace BodyText

/-! ### What is looked for -/

theorem Block.spells_opening (b : Block) : Bytes.Spells b.ignoresCase b.opening := by
  cases b <;> exact Bytes.spells_of_all (by decide)

theorem Block.spells_closing (b : Block) : Bytes.Spells b.ignoresCase b.closing := by
  cases b <;> exact Bytes.spells_of_all (by decide)

theorem Bytes.spells_tagEnd : Spells false ['>'] := spells_of_all (by decide)

/-- The first byte of a `;` is where a reference ends. -/
theorem Reference.findIdx?_take_encode (room : Nat) (cs : List Char) :
    ((Utf8.encode cs).take room).findIdx? (· = semicolon) =
      (tokenWithin? room cs).map fun parts => byteLength parts.1.dropLast := by
  induction cs generalizing room with
  | nil => rw [Utf8.encode_nil, List.take_nil]; rfl
  | cons c cs ih =>
    rw [Utf8.encode_cons, List.take_append, String.length_utf8EncodeChar, tokenWithin?]
    by_cases hc : c = ';'
    · subst hc
      cases room with
      | zero => rfl
      | succ room => rfl
    · have hno (n : Nat) : ((String.utf8EncodeChar c).take n).findIdx? (· = semicolon) = none := by
        rw [List.findIdx?_eq_none_iff]
        rintro b hb
        refine decide_eq_false ?_
        rintro rfl
        exact hc (eq_of_semicolon_mem (List.mem_of_mem_take hb))
      rw [List.findIdx?_append, hno, Option.none_or, if_neg hc]
      split
      · rename_i hroom
        rw [Nat.sub_eq_zero_of_le (Nat.le_of_lt hroom)]
        rfl
      · rename_i hroom
        rw [ih, List.length_take, String.length_utf8EncodeChar, Nat.min_eq_right (by omega),
          Option.map_map, Option.map_map]
        cases htoken : tokenWithin? (room - c.utf8Size) cs with
        | none => rfl
        | some parts =>
          have hne := (eq_append_of_tokenWithin? htoken).1
          simp only [Option.map_some, Function.comp, List.dropLast_cons_of_ne_nil hne, byteLength]
          exact congrArg some (Nat.add_comm _ _)

/-! ### Scanner and converter -/

namespace Scanner

/-- A scanner that stands where a converter stands: what is behind its cursor is the text at hand. -/
structure Shows (s : Scanner) (c : Converter) : Prop where
  /-- Where text comes from. -/
  reader : s.reader = c.reader
  /-- Where text goes. -/
  writer : s.writer = c.writer
  /-- The cursor. -/
  cursor : IsRest s.buffer.text s.buffer.pos c.unread

/-- A phase of a scanner with the phase of the converter, where some text is at hand. What was looked through
holds nothing of what is looked for. -/
inductive Phase.Shows (cs : List Char) : Phase → Converter.Phase → Prop
  | between : Shows cs .between .between
  | closing {b : Block} {start : Nat} :
      Bytes.Searched b.ignoresCase (Utf8.encode b.closing) (Utf8.encode cs) start →
      Shows cs (.closing b start) (.seeking (.closing b))
  | tagEnd {start : Nat} : Bytes.Searched false (Utf8.encode ['>']) (Utf8.encode cs) start →
      Shows cs (.tagEnd start) (.seeking .tagEnd)
  | reference {rest : List Char} : cs = '&' :: rest → Shows cs .reference (.seeking .reference)

/-- A move of a scanner with the move of the converter. -/
inductive Move.Shows : Move → Converter.Move → Prop
  | onward {p : Phase} {q : Converter.Phase} {s : Scanner} {c : Converter} :
      s.Shows c → p.Shows c.unread q → Shows (.onward p s) (.onward q c)
  | answer {result : Except ReadError (Option Chunk)} {s : Scanner} {c : Converter} :
      s.Shows c → Shows (.answer result s) (.answer result c)

variable {s : Scanner} {c : Converter} {cs rest : List Char}

theorem shows_start (stream : Stream) (charset : Charset) (config : Config) :
    (start stream charset config).Shows (.start stream charset config) :=
  ⟨rfl, rfl, .start []⟩

theorem Shows.fresh (h : s.Shows c) : s.fresh.Shows c.fresh :=
  ⟨h.reader, congrArg (·.edit .normal Layout.clear) h.writer, h.cursor⟩

/-- What follows a part of the text at hand. -/
theorem Shows.withUnread {b : Buffer} (h : s.Shows c) (hb : IsRest b.text b.pos cs) :
    { s with buffer := b }.Shows (c.withUnread cs) :=
  ⟨h.reader, h.writer, hb⟩

/-- Both read the same line. -/
theorem Shows.exists_refill (h : s.Shows c) :
    ∃ (result : Except ReadError Bool) (s' : Scanner) (c' : Converter) (more : List Char),
      s.refill = (result, s') ∧ c.refill = (result, c') ∧ s'.Shows c' ∧
        c'.unread = c.unread ++ more ∧ (result = .ok true ∨ more = []) := by
  have hnil : c.unread = c.unread ++ [] := (List.append_nil _).symm
  rw [Scanner.refill, Converter.refill, h.reader, h.writer]
  obtain ⟨pulled, r⟩ := c.reader.pull
  cases pulled with
  | error e => exact ⟨_, _, _, [], rfl, rfl, ⟨rfl, rfl, h.cursor⟩, hnil, .inr rfl⟩
  | ok line? =>
    cases line? with
    | none => exact ⟨_, _, _, [], rfl, rfl, ⟨rfl, rfl, h.cursor⟩, hnil, .inr rfl⟩
    | some line =>
      exact ⟨_, _, _, line.text, rfl, rfl, ⟨rfl, rfl, h.cursor.append line.text⟩, rfl, .inl rfl⟩

theorem Shows.put (h : s.Shows c) (item : Item) : (s.put item).Shows (c.put item) := by
  rw [Scanner.put, Converter.put, h.writer]
  generalize c.writer.write item = result
  obtain ⟨k?, w⟩ := result
  cases k? with
  | none => exact .onward ⟨h.reader, rfl, h.cursor⟩ .between
  | some k => exact .answer ⟨h.reader, rfl, h.cursor⟩

theorem Shows.exists_take? {matched : List Char → Bool} {n : Nat} (h : s.Shows c) (part : List Char)
    (hsplit : c.unread = part ++ rest) (hmatched : matched part = true)
    (hlen : byteLength part = n) (item : Item) :
    ∃ m : Move, s.take? matched n item = some m ∧ m.Shows ((c.withUnread rest).put item) := by
  obtain ⟨b, hb, hrest⟩ := Buffer.exists_pass? matched part (hsplit ▸ h.cursor) hmatched hlen
  exact ⟨_, by rw [take?, hb, Option.map_some], (h.withUnread hrest).put item⟩

/-- Both read on for something that is not there yet. -/
theorem Shows.exists_readOn? {q : Quest} {p : Phase} {atEnd? : Scanner → Option Move}
    (h : s.Shows c) (hmet : q.met c.unread = false)
    (hp : ∀ more, p.Shows (c.unread ++ more) (.seeking q))
    (hend : ∀ (s' : Scanner) (c' : Converter), s'.Shows c' → c'.unread = c.unread →
      ∃ m : Move, atEnd? s' = some m ∧ m.Shows (c'.close q)) :
    ∃ m : Move, s.readOn? p atEnd? = some m ∧ m.Shows (c.turn (.seeking q)) := by
  have hwants : c.wants (.seeking q) = true := by rw [Converter.wants, hmet]; rfl
  obtain ⟨result, s', c', more, hs, hc, hshows, hunread, hmore⟩ := h.exists_refill
  rw [readOn?, hs]
  cases result with
  | error e => exact ⟨_, rfl, Converter.turn_eq_iff.2 (.failed hwants hc) ▸ .answer hshows⟩
  | ok read =>
    cases read with
    | true =>
      refine ⟨_, rfl, Converter.turn_eq_iff.2 (.line hwants hc) ▸ .onward hshows ?_⟩
      rw [hunread]
      exact hp more
    | false =>
      rw [Converter.turn_eq_iff.2 (.atEnd hwants hc)]
      have hnil : more = [] := hmore.resolve_left (by simp)
      exact hend s' c' hshows (by rw [hunread, hnil, List.append_nil])

/-! ### Turns that look for something -/

theorem turn_of_met {q : Quest} (hmet : q.met c.unread = true) :
    c.turn (.seeking q) = c.close q := by
  rw [Converter.turn, Converter.wants, hmet]
  rfl

theorem Shows.exists_seekClosing? {b : Block} {start : Nat} (h : s.Shows c)
    (hstart : Bytes.Searched b.ignoresCase (Utf8.encode b.closing) (Utf8.encode c.unread) start) :
    ∃ m : Move, s.seekClosing? b start c.unread = some m ∧
      m.Shows (c.turn (.seeking (.closing b))) := by
  have hne : b.closing ≠ [] := by cases b <;> exact List.cons_ne_nil _ _
  -- nothing closes the block before the start, so what is found is the first of all that does
  rw [seekClosing?, Bytes.find?_encode b.spells_closing hne hstart]
  cases hoffset : Bytes.offset? b.closing c.unread with
  | some i =>
    obtain ⟨before, occurrence, rest, hsplit, rfl, hocc, hpast⟩ := Bytes.exists_of_offset? hoffset
    have hmet : (Quest.closing b).met c.unread = true := Option.isSome_of_eq_some hpast
    have hclose : c.close (.closing b) = (c.withUnread rest).put .skipped := by
      rw [Converter.close, Quest.item, Block.closed?, hpast]
      rfl
    rw [turn_of_met hmet, hclose]
    rw [hsplit] at hpast
    refine h.exists_take? (before ++ occurrence) ?_ ?_ ?_ .skipped
    · rw [hsplit, List.append_assoc]
    · exact decide_eq_true (Bytes.past?_eq_some_nil hocc hpast)
    · rw [byteLength_append, Bytes.byteLength_of_lower hocc fun m hm => (b.spells_closing m hm).1]
  | none =>
    have hnone : past? b.closing c.unread = none := Bytes.past?_of_offset?_none hne hoffset
    refine h.exists_readOn? (q := .closing b) ?_ (fun more => .closing ?_) fun s' c' h' hunread => ?_
    · exact Option.isSome_eq_false_iff.2 (Option.isNone_iff_eq_none.2 hnone)
    · rw [Buffer.remaining_eq h.cursor]
      exact Bytes.searched_encode_append b.spells_closing hne hoffset more
    · have hclose : c'.close (.closing b) = (c'.withUnread []).put .skipped := by
        rw [Converter.close, hunread, Quest.item, Block.closed?, hnone]
        rfl
      rw [hclose]
      exact ⟨_, rfl, (h'.withUnread (.ending _)).put .skipped⟩

theorem Shows.exists_seekTagEnd? {start : Nat} (h : s.Shows c)
    (hstart : Bytes.Searched false (Utf8.encode ['>']) (Utf8.encode c.unread) start) :
    ∃ m : Move, s.seekTagEnd? start c.unread = some m ∧ m.Shows (c.turn (.seeking .tagEnd)) := by
  have hoffset := Bytes.offset?_singleton (d := '>') rfl rfl c.unread
  rw [seekTagEnd?, Bytes.find?_encode Bytes.spells_tagEnd (List.cons_ne_nil _ _) hstart, hoffset]
  cases hsplit : splitAt? '>' c.unread with
  | some parts =>
    obtain ⟨text, after⟩ := parts
    have hunread := eq_append_of_splitAt? hsplit
    have hclose : c.close .tagEnd = (c.withUnread after).put (.tag text) := by
      rw [Converter.close, Quest.item, hsplit]
    have hmet : Quest.tagEnd.met c.unread = true := by
      refine List.contains_iff_mem.2 ?_
      rw [hunread]
      exact List.mem_append_right text List.mem_cons_self
    -- the byte of the `>` is no byte of another character, so the text before it is whole
    have hslice : slice? c.unread 0 (byteLength text) = some text := by
      rw [hunread]
      simpa using (IsRest.start (text ++ '>' :: after)).slice?_eq
    rw [turn_of_met hmet, hclose]
    simp only [Option.map_some, hslice, Option.bind_some]
    refine h.exists_take? (text ++ ['>']) ?_ ?_ ?_ (.tag text)
    · rw [hunread, List.append_assoc, List.singleton_append]
    · exact decide_eq_true (splitAt?_of_not_mem (Bytes.not_mem_of_splitAt? hsplit) [])
    · exact byteLength_append text ['>']
  | none =>
    rw [hsplit, Option.map_none] at hoffset
    refine h.exists_readOn? (q := .tagEnd) ?_ (fun more => .tagEnd ?_) fun s' c' h' hunread => ?_
    · exact Bool.eq_false_iff.2 (mt List.contains_iff_mem.1 (splitAt?_eq_none_iff.1 hsplit))
    · rw [Buffer.remaining_eq h.cursor]
      exact Bytes.searched_encode_append Bytes.spells_tagEnd (List.cons_ne_nil _ _) hoffset more
    · have hclose : c'.close .tagEnd = c'.put (.unclosed c'.unread) := by
        rw [Converter.close, Quest.item, hunread, hsplit, ← hunread]
        rfl
      rw [hclose, Buffer.rest?_eq h'.cursor]
      exact ⟨_, rfl, h'.put _⟩

theorem Shows.exists_takeReference? (h : s.Shows c) (hunread : c.unread = '&' :: rest) :
    ∃ m : Move, s.takeReference? c.unread = some m ∧ m.Shows (c.close .reference) := by
  have hfind := Reference.findIdx?_take_encode Reference.maxBytes c.unread
  rw [takeReference?, show (0x3B : UInt8) = Reference.semicolon from rfl, hfind, Converter.close,
    Quest.item, Reference.token?]
  cases htoken : Reference.tokenWithin? Reference.maxBytes c.unread with
  | some parts =>
    obtain ⟨token, after⟩ := parts
    obtain ⟨-, hsplit⟩ := Reference.eq_append_of_tokenWithin? htoken
    obtain ⟨name, rfl, hname⟩ := Reference.exists_of_tokenWithin? htoken
    -- the bytes that are looked at may end within a character, but the token does not
    have hlen : byteLength (name ++ [';']) = byteLength name + 1 := byteLength_append name [';']
    have hslice : slice? c.unread 0 (byteLength name + 1) = some (name ++ [';']) := by
      have hstart : IsRest c.unread 0 ((name ++ [';']) ++ after) := hsplit ▸ .start c.unread
      rw [← hlen]
      simpa using hstart.slice?_eq
    simp only [Option.map_some, List.dropLast_concat, hslice, Option.bind_some]
    refine h.exists_take? _ hsplit ?_ hlen _
    exact decide_eq_true ⟨rfl, splitAt?_of_not_mem hname []⟩
  | none =>
    rw [Option.map_none]
    have hdrop : c.unread = ['&'] ++ c.unread.drop 1 := by rw [hunread]; rfl
    exact h.exists_take? ['&'] hdrop rfl rfl _

theorem Shows.exists_seekReference? (h : s.Shows c) (hunread : c.unread = '&' :: rest) :
    ∃ m : Move, s.seekReference? c.unread = some m ∧ m.Shows (c.turn (.seeking .reference)) := by
  rw [seekReference?]
  split
  · rename_i hsettled
    rw [turn_of_met (q := .reference) hsettled]
    exact h.exists_takeReference? hunread
  · rename_i hsettled
    refine h.exists_readOn? (q := .reference) (Bool.eq_false_iff.2 hsettled) (fun more => ?_)
      fun s' c' h' hunread' => ?_
    · have hmore : c.unread ++ more = '&' :: (rest ++ more) := by rw [hunread]; rfl
      exact .reference hmore
    · rw [Buffer.rest?_eq h'.cursor, Option.bind_some]
      exact h'.exists_takeReference? (hunread'.trans hunread)

/-! ### Turns between two items -/

theorem turn_of_ne_nil (hne : c.unread ≠ []) : c.turn .between = c.act .between := by
  have hwants : c.wants .between = false := by
    rw [Converter.wants, List.isEmpty_eq_false_iff.2 hne, Bool.false_and]
  exact Converter.turn_eq_iff.2 (.act hwants)

theorem Shows.atEnd (h : s.Shows c) (hnil : c.unread = []) :
    s.atEnd.Shows (c.turn .between) := by
  have hwants : c.wants .between = c.writer.layout.text.isEmpty := by
    rw [Converter.wants, hnil]
    rfl
  rw [Scanner.atEnd, h.writer]
  by_cases htext : c.writer.layout.text.isEmpty = true
  · have hclear : { s with buffer := {} }.Shows c := ⟨h.reader, h.writer, hnil ▸ .start []⟩
    obtain ⟨result, s', c', more, hs, hc, hshows, -⟩ := hclear.exists_refill
    rw [htext] at hwants
    rw [if_pos htext]
    simp only [← h.writer, hs]
    cases result with
    | error e =>
      rw [Converter.turn_eq_iff.2 (.failed hwants hc)]
      exact .answer hshows
    | ok read =>
      cases read with
      | true =>
        rw [Converter.turn_eq_iff.2 (.line hwants hc)]
        exact .onward hshows .between
      | false =>
        rw [Converter.turn_eq_iff.2 (.atEnd hwants hc)]
        refine .answer ⟨hshows.reader, ?_, hshows.cursor⟩
        simp only [hshows.writer]
        rfl
  · have hact : c.act .between = .answer (.ok (some c.cut.1)) c.cut.2 := by
      rw [Converter.act, hnil]
      rfl
    rw [if_neg htext, Converter.turn_eq_iff.2 (.act (hwants.trans (Bool.eq_false_iff.2 htext))), hact]
    exact .answer ⟨h.reader, rfl, h.cursor⟩

/-- The block that a text opens is told by its bytes. -/
theorem find?_startsWith (cs : List Char) :
    (Block.all.find? fun b =>
        Bytes.startsWith b.ignoresCase (Utf8.encode b.opening) (Utf8.encode cs)) =
      (Block.opened? cs).map Prod.fst := by
  simp only [Bytes.startsWith_encode (Block.spells_opening _), Block.opened?]
  generalize Block.all = blocks
  induction blocks with
  | nil => rfl
  | cons b blocks ih =>
    rw [List.find?_cons, List.findSome?_cons]
    cases after? b.opening cs with
    | none => exact ih
    | some rest => rfl

theorem Shows.exists_open? (h : s.Shows c) (hunread : c.unread = '<' :: cs) :
    ∃ m : Move, s.open? c.unread = some m ∧ m.Shows (c.act .between) := by
  have hne : '<' = '\r' → cs.head? ≠ some '\n' := fun heq => absurd heq (by decide)
  have hhead := (Head.of?_cons hne).trans (if_pos rfl)
  rw [← hunread] at hhead
  rw [open?, find?_startsWith, Converter.act]
  cases hopened : Block.opened? c.unread with
  | some opened =>
    obtain ⟨b, rest⟩ := opened
    obtain ⟨opening, hsplit, hopening⟩ := after?_eq_some_iff.1 (Block.opened?_eq_some_iff.1 hopened)
    have hlen : byteLength opening = b.openingBytes := by
      rw [Bytes.byteLength_of_lower hopening fun m hm => (b.spells_opening m hm).1]
      cases b <;> rfl
    obtain ⟨buffer, hbuffer, hrest⟩ := Buffer.exists_pass? (lower · = b.opening) opening
      (hsplit ▸ h.cursor) (decide_eq_true hopening) hlen
    rw [hopened] at hhead
    simp only [hhead, Option.map_some, hbuffer]
    exact ⟨_, rfl, .onward (h.withUnread hrest) (.closing Bytes.searched_zero)⟩
  | none =>
    obtain ⟨buffer, hbuffer, hrest⟩ := Buffer.exists_pass? (n := 1) (· = ['<']) ['<']
      (hunread ▸ h.cursor) rfl rfl
    rw [hopened] at hhead
    simp only [hhead, Option.map_none, hbuffer, Option.map_some]
    exact ⟨_, rfl, .onward (h.withUnread hrest) (.tagEnd Bytes.searched_zero)⟩

theorem Shows.exists_takeOne? {d : Char} (h : s.Shows c) (hunread : c.unread = d :: cs)
    (hblank : isBodyBlank d = true) :
    ∃ m : Move, s.takeOne? = some m ∧ m.Shows ((c.withUnread cs).put (.blank d)) := by
  have hsize : d.utf8Size = 1 := by
    simp only [isBodyBlank, Bool.or_eq_true, decide_eq_true_eq] at hblank
    rcases hblank with ((rfl | rfl) | rfl) | rfl <;> rfl
  rw [takeOne?, Buffer.rest?_eq h.cursor, hunread]
  simp only [Option.bind_some, List.head?_cons, hsize, ite_self]
  exact h.exists_take? [d] hunread (decide_eq_true rfl) hsize _

theorem Shows.exists_takeBlank? {d : Char} (h : s.Shows c) (hunread : c.unread = d :: cs)
    (hblank : isBodyBlank d = true) (hlt : d ≠ '<') (hand : d ≠ '&') :
    ∃ m : Move, s.takeBlank? c.unread = some m ∧ m.Shows (c.act .between) := by
  rw [takeBlank?]
  by_cases hcrlf : c.unread.take 2 = ['\r', '\n']
  · -- the line end CR LF is one blank
    obtain ⟨rest, hrest⟩ : ∃ rest, c.unread = ['\r', '\n'] ++ rest :=
      ⟨c.unread.drop 2, by rw [← hcrlf, List.take_append_drop]⟩
    obtain ⟨buffer, hbuffer, hcursor⟩ := Buffer.exists_pass? (n := 1) (· = ['\r']) ['\r']
      (hrest ▸ h.cursor) rfl rfl
    have hhead : Head.of? c.unread = some (.blank '\n' rest) := by rw [hrest]; rfl
    rw [if_pos hcrlf, hbuffer, Option.bind_some, Converter.act, hhead]
    exact (h.withUnread hcursor).exists_takeOne? rfl rfl
  · have hhead : Head.of? c.unread = some (.blank d cs) := by
      rw [hunread, Head.of?_cons, if_neg hlt, if_neg hand, if_pos hblank]
      rintro rfl hnext
      obtain ⟨rest, rfl⟩ := List.head?_eq_some_iff.1 hnext
      exact hcrlf (by rw [hunread]; rfl)
    rw [if_neg hcrlf, Option.bind_some, Converter.act, hhead]
    exact h.exists_takeOne? hunread hblank

theorem Shows.exists_step? (h : s.Shows c) :
    ∃ m : Move, s.step? c.unread = some m ∧ m.Shows (c.turn .between) := by
  cases hunread : c.unread with
  | nil => exact ⟨s.atEnd, rfl, h.atEnd hunread⟩
  | cons d cs =>
    rw [turn_of_ne_nil (by rw [hunread]; exact List.cons_ne_nil d cs), step?, ← hunread]
    by_cases hlt : d = '<'
    · rw [if_pos hlt]
      exact h.exists_open? (hlt ▸ hunread)
    · rw [if_neg hlt]
      by_cases hand : d = '&'
      · subst hand
        have hhead : Head.of? c.unread = some (.ampersand cs) := by
          rw [hunread, Head.of?_cons fun heq => absurd heq (by decide), if_neg hlt, if_pos rfl]
        rw [if_pos rfl, Converter.act, hhead]
        exact ⟨_, rfl, .onward h (.reference hunread)⟩
      · rw [if_neg hand]
        by_cases hblank : isBodyBlank d = true
        · rw [if_pos hblank]
          exact h.exists_takeBlank? hunread hblank hlt hand
        · have hhead : Head.of? c.unread = some (.char d cs) := by
            rw [hunread, Head.of?_cons, if_neg hlt, if_neg hand, if_neg hblank]
            rintro rfl
            exact absurd rfl hblank
          rw [if_neg hblank, Converter.act, hhead]
          exact h.exists_take? [d] hunread (decide_eq_true rfl) rfl _

/-- **One turn.** A scanner that stands where a converter stands can make its turn, with a sound use of the
cursor, and then stands where the converter does after its own. -/
theorem exists_turn? {p : Phase} {q : Converter.Phase} (h : s.Shows c) (hp : p.Shows c.unread q) :
    ∃ m : Move, s.turn? p = some m ∧ m.Shows (c.turn q) := by
  rw [turn?, Buffer.rest?_eq h.cursor, Option.bind_some]
  cases hp with
  | between => exact h.exists_step?
  | closing hstart => exact h.exists_seekClosing? hstart
  | tagEnd hstart => exact h.exists_seekTagEnd? hstart
  | reference hunread => exact h.exists_seekReference? hunread

/-- What a turn of a scanner came to, the turn of the converter came to. -/
theorem shows_of_turn? {p : Phase} {q : Converter.Phase} {m : Move} (h : s.Shows c)
    (hp : p.Shows c.unread q) (hm : s.turn? p = some m) : m.Shows (c.turn q) := by
  obtain ⟨m', hm', hmove⟩ := exists_turn? h hp
  rw [hm] at hm'
  exact Option.some.inj hm' ▸ hmove

end Scanner

/-! ### Sessions -/

namespace Converter

variable {stream : Stream} {charset : Charset} {config : Config}

/-- The states of a converter that is called again and again: in a phase of a call, or between two calls. -/
inductive Visits (stream : Stream) (charset : Charset) (config : Config) :
    Option Phase → Converter → Prop
  | start : Visits stream charset config none (start stream charset config)
  | call {c : Converter} : Visits stream charset config none c →
      Visits stream charset config (some .between) c.fresh
  | onward {p p' : Phase} {c c' : Converter} : Visits stream charset config (some p) c →
      c.turn p = .onward p' c' → Visits stream charset config (some p') c'
  | answer {p : Phase} {result : Except ReadError (Option Chunk)} {c c' : Converter} :
      Visits stream charset config (some p) c → c.turn p = .answer result c' →
      Visits stream charset config none c'

/-- A call goes through states that are visited, and leaves one. -/
theorem Visits.answers {n : Nat} {p : Phase} {c : Converter}
    {answer : Except ReadError (Option Chunk) × Converter}
    (h : Visits stream charset config (some p) c) (hanswers : Answers n p c answer) :
    Visits stream charset config none answer.2 := by
  induction hanswers with
  | last hturn => exact h.answer hturn
  | onward hturn _ ih => exact ih (h.onward hturn)

theorem Visits.nexts {c : Converter} (h : Visits stream charset config none c) (n : Nat) :
    Visits stream charset config none (c.nexts n) := by
  induction n generalizing c with
  | zero => exact h
  | succ n ih =>
    obtain ⟨m, hanswers⟩ := answers_next c
    exact ih (h.call.answers hanswers)

/-- The converter that the calls of a session leave. -/
def leftBy (c : Converter) : List Call → Converter
  | [] | .finish :: _ => c
  | .next :: calls => c.callNext.2.leftBy calls
  | .events count :: calls => (c.callEvents count).2.leftBy calls
  | .diagnostics :: calls => c.leftBy calls

/-- Whatever a session asks for, it leaves a converter that chunks were asked for. -/
theorem leftBy_eq_nexts (c : Converter) (calls : List Call) :
    c.leftBy calls = c.nexts (c.requests calls) := by
  induction calls generalizing c with
  | nil => rfl
  | cons call calls ih =>
    cases call with
    | next =>
      rw [leftBy, ih, requests]
      rfl
    | events count =>
      obtain ⟨-, hconverter⟩ := told_callEvents c count
      rw [leftBy, ih, requests, nexts_add, ← hconverter]
    | diagnostics => exact ih c
    | finish => rfl

end Converter

namespace Scanner

variable {stream : Stream} {charset : Charset} {config : Config}

/-- A scanner stands where a converter stands that goes through the same calls. -/
theorem Visits.exists_shows {p? : Option Phase} {s : Scanner} (h : Visits stream charset config p? s) :
    ∃ (q? : Option Converter.Phase) (c : Converter), Converter.Visits stream charset config q? c ∧
      s.Shows c ∧ Option.Rel (Phase.Shows c.unread) p? q? := by
  induction h with
  | start => exact ⟨none, _, .start, shows_start stream charset config, .none⟩
  | call _ ih =>
    obtain ⟨q?, c, hc, hshows, hphase⟩ := ih
    cases hphase
    exact ⟨_, _, hc.call, hshows.fresh, .some .between⟩
  | onward _ hturn ih =>
    obtain ⟨q?, c, hc, hshows, hphase⟩ := ih
    cases hphase with
    | some hphase =>
      have hmove := shows_of_turn? hshows hphase hturn
      generalize hnext : c.turn _ = move at hmove
      cases hmove with
      | onward hshows' hphase' => exact ⟨_, _, hc.onward hnext, hshows', .some hphase'⟩
  | answer _ hturn ih =>
    obtain ⟨q?, c, hc, hshows, hphase⟩ := ih
    cases hphase with
    | some hphase =>
      have hmove := shows_of_turn? hshows hphase hturn
      generalize hnext : c.turn _ = move at hmove
      cases hmove with
      | answer hshows' => exact ⟨_, _, hc.answer hnext, hshows', .none⟩

/-- A converter stands where a scanner stands that goes through the same calls. -/
theorem exists_visits {q? : Option Converter.Phase} {c : Converter}
    (h : Converter.Visits stream charset config q? c) :
    ∃ (p? : Option Phase) (s : Scanner), Visits stream charset config p? s ∧ s.Shows c ∧
      Option.Rel (Phase.Shows c.unread) p? q? := by
  induction h with
  | start => exact ⟨none, _, .start, shows_start stream charset config, .none⟩
  | call _ ih =>
    obtain ⟨p?, s, hs, hshows, hphase⟩ := ih
    cases hphase
    exact ⟨_, _, hs.call, hshows.fresh, .some .between⟩
  | onward _ hturn ih =>
    obtain ⟨p?, s, hs, hshows, hphase⟩ := ih
    cases hphase with
    | some hphase =>
      obtain ⟨m, hm, hmove⟩ := exists_turn? hshows hphase
      rw [hturn] at hmove
      cases hmove with
      | onward hshows' hphase' => exact ⟨_, _, hs.onward hm, hshows', .some hphase'⟩
  | answer _ hturn ih =>
    obtain ⟨p?, s, hs, hshows, hphase⟩ := ih
    cases hphase with
    | some hphase =>
      obtain ⟨m, hm, hmove⟩ := exists_turn? hshows hphase
      rw [hturn] at hmove
      cases hmove with
      | answer hshows' => exact ⟨_, _, hs.answer hm, hshows', .none⟩

/-- **The cursor is sound**, whatever the input, its charset and the configuration are, and whatever a session
asks for. In every state that a scanner visits, the cursor is between two characters and not past the end,
and the next turn passes all of its checks: the cursor is moved by the number of bytes of what was matched,
and what is cut out starts and ends between characters. The states that the converter visits, and those that
sessions leave it in, are shown by such scanners. -/
theorem cursor_sound (stream : Stream) (charset : Charset) (config : Config) :
    (∀ p? s, Visits stream charset config p? s →
      IsPlace s.buffer.text s.buffer.pos ∧ s.buffer.pos ≤ byteLength s.buffer.text ∧
        ∀ p ∈ p?, ∃ m : Move, s.turn? p = some m) ∧
      (∀ q? c, Converter.Visits stream charset config q? c →
        ∃ (p? : Option Phase) (s : Scanner), Visits stream charset config p? s ∧ s.Shows c ∧
          Option.Rel (Phase.Shows c.unread) p? q?) ∧
      ∀ calls, Converter.Visits stream charset config none
        ((Converter.start stream charset config).leftBy calls) := by
  refine ⟨fun p? s h => ?_, fun q? c => exists_visits, fun calls => ?_⟩
  · obtain ⟨q?, c, -, hshows, hphase⟩ := h.exists_shows
    refine ⟨⟨_, hshows.cursor⟩, ?_, ?_⟩
    · have hlen := hshows.cursor.add_byteLength
      omega
    · rintro p rfl
      cases hphase with
      | some hphase =>
        obtain ⟨m, hm, -⟩ := exists_turn? hshows hphase
        exact ⟨m, hm⟩
  · rw [Converter.leftBy_eq_nexts]
    exact Converter.Visits.start.nexts _

end Scanner

end BodyText
