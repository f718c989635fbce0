import BodyText.Proofs.ToldChunks
import BodyText.Proofs.Turns

/-!
# Conversions end

Whatever charset decodes its lines, under any limit and in any state, a call for the next chunk is
answered after finitely many turns, each with one read at most; a chunk takes at least one character
off the text that was read; and the events come to an end (`Converter.conversion_ends`).

What a converter reads and uses up is kept account of (`Converter.Uses`): the text at hand and the
text of the lines that are read are what is used up and what is at hand afterwards. A turn is paid
for by a line that is read, by characters that are used up, or by the phase it leaves
(`Phase.credit`), so no more turns are taken than the account allows.
-/

namespace BodyText

/-! ### Reads -/

namespace Stream

/-- A line that could not be read loses some of the bytes to come, or none. -/
theorem length_bytes_of_takeLine_error {room : Nat} {s s' : Stream} {e : ReadError}
    (h : s.takeLine room = (.error e, s')) : s'.bytes.length ≤ s.bytes.length := by
  fun_induction takeLine room s with
  | case1 => cases h
  | case2 => cases h
  | case3 room s ih => exact ih h
  | case4 =>
    cases h
    exact Nat.le_refl _
  | case5 => cases h
  | case6 => cases h
  | case7 room bs s taken hgo e' s'' htake ih =>
    cases h
    have hle := ih htake
    rw [bytes, List.length_append]
    omega

end Stream

namespace Reader

/-- A number of reads, one after the other, and the lines that came of them. A read that fails makes
no line, nor does one that finds the input at its end. -/
inductive Pulls : Nat → Reader → List Line → Reader → Prop
  /-- No reads. -/
  | refl {r : Reader} : Pulls 0 r [] r
  /-- A line was read. -/
  | line {n : Nat} {r r' r'' : Reader} {line : Line} {lines : List Line} :
      r.pull = (.ok (some line), r') → Pulls n r' lines r'' → Pulls (n + 1) r (line :: lines) r''
  /-- The input was at its end. -/
  | ended {n : Nat} {r r' r'' : Reader} {lines : List Line} :
      r.pull = (.ok none, r') → Pulls n r' lines r'' → Pulls (n + 1) r lines r''
  /-- A read failed. -/
  | failed {n : Nat} {r r' r'' : Reader} {e : ReadError} {lines : List Line} :
      r.pull = (.error e, r') → Pulls n r' lines r'' → Pulls (n + 1) r lines r''

theorem Pulls.trans {n m : Nat} {r r' r'' : Reader} {lines more : List Line}
    (h : Pulls n r lines r') (h' : Pulls m r' more r'') :
    Pulls (n + m) r (lines ++ more) r'' := by
  induction h with
  | refl =>
    rw [Nat.zero_add]
    exact h'
  | line hpull _ ih =>
    rw [Nat.add_right_comm]
    exact .line hpull (ih h')
  | ended hpull _ ih =>
    rw [Nat.add_right_comm]
    exact .ended hpull (ih h')
  | failed hpull _ ih =>
    rw [Nat.add_right_comm]
    exact .failed hpull (ih h')

/-- A read that fails adds nothing to what remains. -/
theorem remaining_of_pull_error {r r' : Reader} {e : ReadError} (h : r.pull = (.error e, r')) :
    r'.remaining ≤ r.remaining := by
  rw [pull] at h
  split at h
  · rename_i htake
    cases h
    have hle := Stream.length_bytes_of_takeLine_error htake
    simp only [remaining, List.length_nil]
    omega
  · cases h

/-- Each line takes at least one byte off what remains. -/
theorem Pulls.length_lines_le {n : Nat} {r r' : Reader} {lines : List Line}
    (h : Pulls n r lines r') : lines.length + r'.remaining ≤ r.remaining := by
  induction h with
  | refl => simp
  | line hpull _ ih =>
    have hlt := remaining_of_pull hpull
    rw [List.length_cons]
    omega
  | ended hpull _ ih =>
    have heq := remaining_of_pull_none hpull
    omega
  | failed hpull _ ih =>
    have hle := remaining_of_pull_error hpull
    omega

end Reader

/-! ### The account of a conversion -/

namespace Converter

/-- From `c` to `c'`, a number of reads made some lines, and some text was used up. No character is
lost: what was at hand and what was read is what was used up and what is at hand. -/
structure Uses (c c' : Converter) (reads : Nat) (lines : List Line) (used : List Char) : Prop where
  /-- The reads. -/
  pulls : c.reader.Pulls reads lines c'.reader
  /-- The account of the text. -/
  text : c.unread ++ lines.flatMap Line.text = used ++ c'.unread

theorem Uses.trans {c c' c'' : Converter} {n m : Nat} {lines more : List Line}
    {used later : List Char} (h : c.Uses c' n lines used) (h' : c'.Uses c'' m more later) :
    c.Uses c'' (n + m) (lines ++ more) (used ++ later) := by
  refine ⟨h.pulls.trans h'.pulls, ?_⟩
  rw [List.flatMap_append, ← List.append_assoc, h.text, List.append_assoc, h'.text,
    List.append_assoc]

/-- Text that is used up without a read. -/
theorem Uses.of_eq_append {c c' : Converter} {used : List Char} (hreader : c'.reader = c.reader)
    (htext : c.unread = used ++ c'.unread) : c.Uses c' 0 [] used := by
  refine ⟨hreader ▸ .refl, ?_⟩
  rw [List.flatMap_nil, List.append_nil, htext]

/-- The lines that one refill comes to. -/
theorem exists_uses_refill (c : Converter) :
    ∃ lines, c.Uses c.refill.2 1 lines [] ∧ (c.refill.1 = .ok true → lines.length = 1) ∧
      c.refill.2.writer.layout = c.writer.layout := by
  have layout_report (w : Writer) (d : Diagnostic) : (w.report d).layout = w.layout := by
    unfold Writer.report
    split <;> rfl
  rw [refill]
  split
  · rename_i hpull
    refine ⟨[], ⟨.failed hpull .refl, by simp⟩, ?_, rfl⟩
    intro h
    cases h
  · rename_i hpull
    refine ⟨[], ⟨.ended hpull .refl, by simp⟩, ?_, rfl⟩
    intro h
    cases h
  · rename_i line r hpull
    refine ⟨[line], ⟨.line hpull .refl, by simp⟩, fun _ => rfl, ?_⟩
    simp only
    split
    · exact layout_report _ _
    · rfl

/-! ### The account of a turn -/

/-- How many turns a phase has paid for already: behind the opening of a block or a tag, the turn
that closes it; the turns that a call ends with are paid for from the start. -/
def Phase.credit : Phase → Nat
  | .seeking .reference => 1
  | .between => 2
  | .seeking (.closing _) | .seeking .tagEnd => 3

/-- A phase that a converter can be in: what may be a reference is still at hand. -/
def Fits (c : Converter) (p : Phase) : Prop :=
  p = .seeking .reference → ∃ cs, c.unread = '&' :: cs

/-- Nothing of the next chunk was used up. -/
def Unspent (c : Converter) (p : Phase) : Prop :=
  c.writer.layout.text = "" ∧ (p = .between ∨ p = .seeking .reference)

namespace Move

/-- How many turns a move leaves paid for. -/
def credit : Move → Nat
  | onward p _ => p.credit
  | answer _ _ => 0

/-- A move to a phase that fits, or to an answer. -/
def Fits : Move → Prop
  | onward p c => c.Fits p
  | answer _ _ => True

/-- A move by which nothing of the next chunk was used up, or to an answer that is none. -/
def Unspent : Move → Prop
  | onward p c => c.Unspent p
  | answer (.ok (some _)) _ => False
  | answer (.ok none) _ | answer (.error _) _ => True

end Move

/-- The account of one turn. -/
structure Spends (c : Converter) (p : Phase) (move : Move) (reads : Nat) (lines : List Line)
    (used : List Char) : Prop where
  /-- What was read and used up. -/
  uses : c.Uses move.converter reads lines used
  /-- There is one read at most. -/
  reads_le : reads ≤ 1
  /-- The turn is paid for. -/
  credit : 1 + move.credit ≤ 2 * used.length + lines.length + p.credit
  /-- The phases fit. -/
  fits : move.Fits
  /-- Where nothing is used up, no text of a chunk comes about. -/
  unspent : used = [] → c.Unspent p → move.Unspent

theorem Phase.credit_pos (p : Phase) : 0 < p.credit := by
  rcases p with _ | ⟨_ | _ | _⟩ <;> exact Nat.succ_pos _

/-- Writing an item uses nothing up, and leaves two turns paid for at most. -/
theorem put_cases (c : Converter) (item : Item) :
    (c.put item).converter.reader = c.reader ∧ (c.put item).converter.unread = c.unread ∧
      (c.put item).credit ≤ 2 ∧ (c.put item).Fits := by
  rw [put]
  split
  · exact ⟨rfl, rfl, Nat.zero_le 2, trivial⟩
  · refine ⟨rfl, rfl, Nat.le_refl 2, ?_⟩
    intro h
    cases h

/-- What closes an item is some text, unless its opening was used up already. -/
theorem Quest.length_item_reference {cs : List Char} (h : cs ≠ []) :
    (Quest.reference.item cs).2.length < cs.length := by
  rw [Quest.item]
  split
  · rename_i token after htoken
    obtain ⟨hne, happ⟩ := Reference.eq_append_of_tokenWithin? htoken
    have hpos := List.length_pos_iff.2 hne
    have hlen := congrArg List.length happ
    rw [List.length_append] at hlen
    exact (by omega : after.length < cs.length)
  · have hpos := List.length_pos_iff.2 h
    rw [List.length_drop]
    omega

/-- The account of an item that is put whole. -/
theorem exists_spends_put {c : Converter} {p : Phase} {rest : List Char} (hrest : rest <:+ c.unread)
    (hcredit : rest.length < c.unread.length ∨ 3 ≤ p.credit)
    (hunspent : c.Unspent p → rest.length < c.unread.length) (item : Item) :
    ∃ used, c.Spends p ((c.withUnread rest).put item) 0 [] used := by
  obtain ⟨used, hused⟩ := hrest
  obtain ⟨hreader, hunread, hle, hfits⟩ := put_cases (c.withUnread rest) item
  have hlen := congrArg List.length hused
  rw [List.length_append] at hlen
  have hpos := p.credit_pos
  refine ⟨used, ⟨.of_eq_append hreader ?_, Nat.zero_le 1, ?_, hfits, ?_⟩⟩
  · rw [hunread, ← hused]
    rfl
  · rw [List.length_nil]
    omega
  · rintro rfl h
    have hlt := hunspent h
    rw [List.length_nil] at hlen
    omega

theorem exists_spends_close {c : Converter} {q : Quest} (hfits : c.Fits (.seeking q)) :
    ∃ used, c.Spends (.seeking q) (c.close q) 0 [] used := by
  have hreference (hq : q = .reference) :
      (Quest.reference.item c.unread).2.length < c.unread.length := by
    obtain ⟨cs, hunread⟩ := hfits (congrArg Phase.seeking hq)
    exact Quest.length_item_reference (hunread ▸ List.cons_ne_nil '&' cs)
  refine exists_spends_put (q.suffix_item c.unread) ?_ ?_ _
  · cases q with
    | closing b => exact .inr (Nat.le_refl 3)
    | tagEnd => exact .inr (Nat.le_refl 3)
    | reference => exact .inl (hreference rfl)
  · rintro ⟨-, hp | hp⟩
    · cases hp
    · cases hp
      exact hreference rfl

/-- The account of an opening, which pays for the turn that closes it. -/
theorem exists_spends_open {c : Converter} {rest : List Char} (hrest : rest <:+ c.unread)
    (hlt : rest.length < c.unread.length) {q : Quest} (hq : q ≠ .reference) :
    ∃ used, c.Spends .between (.onward (.seeking q) (c.withUnread rest)) 0 [] used := by
  obtain ⟨used, hused⟩ := hrest
  have hlen := congrArg List.length hused
  rw [List.length_append] at hlen
  refine ⟨used, ⟨.of_eq_append rfl hused.symm, Nat.zero_le 1, ?_, ?_, ?_⟩⟩
  · have hcredit : (Phase.seeking q).credit ≤ 3 := by
      cases q <;> simp [Phase.credit]
    change 1 + (Phase.seeking q).credit ≤ 2 * used.length + 0 + 2
    omega
  · exact fun h => absurd (Phase.seeking.inj h) hq
  · rintro rfl -
    rw [List.length_nil] at hlen
    omega

/-- The account of a turn without a read. -/
theorem exists_spends_act {c : Converter} {p : Phase} (hfits : c.Fits p)
    (hwants : c.wants p = false) : ∃ used, c.Spends p (c.act p) 0 [] used := by
  cases p with
  | seeking q => exact exists_spends_close hfits
  | between =>
    rw [act]
    cases hhead : Head.of? c.unread with
    | none =>
      have hnil := Head.of?_eq_none_iff.1 hhead
      refine ⟨[], ⟨.of_eq_append rfl rfl, Nat.zero_le 1, Nat.le_succ 1, trivial, ?_⟩⟩
      rintro - ⟨htext, -⟩
      simp [wants, hnil, htext] at hwants
    | some head =>
      have hlt := Head.length_rest hhead
      have hsuffix := Head.suffix_rest hhead
      cases head with
      | block b rest => exact exists_spends_open hsuffix hlt Quest.noConfusion
      | tag rest => exact exists_spends_open hsuffix hlt Quest.noConfusion
      | ampersand rest =>
        refine ⟨[], ⟨.of_eq_append rfl rfl, Nat.zero_le 1, Nat.le_refl 2, ?_, ?_⟩⟩
        · exact fun _ => ⟨rest, Head.eq_cons_of_ampersand hhead⟩
        · exact fun _ h => ⟨h.1, .inr rfl⟩
      | blank d rest => exact exists_spends_put hsuffix (.inl hlt) (fun _ => hlt) _
      | char d rest => exact exists_spends_put hsuffix (.inl hlt) (fun _ => hlt) _

/-- The account of what is done at the end of the input. -/
theorem exists_spends_actAtEnd {c : Converter} {p : Phase} (hfits : c.Fits p) :
    ∃ used, c.Spends p (c.actAtEnd p) 0 [] used := by
  cases p with
  | seeking q => exact exists_spends_close hfits
  | between =>
    exact ⟨[], ⟨.of_eq_append rfl rfl, Nat.zero_le 1, Nat.le_succ 1, trivial, fun _ _ => trivial⟩⟩

/-- **The account of a turn**: it reads a line, uses characters up, or closes what was paid for. -/
theorem exists_spends_turn {c : Converter} {p : Phase} (hfits : c.Fits p) :
    ∃ reads lines used, c.Spends p (c.turn p) reads lines used := by
  obtain ⟨lines, huses, hline, hlayout⟩ := exists_uses_refill c
  have hfits' : c.refill.2.Fits p := by
    intro hp
    obtain ⟨cs, hunread⟩ := hfits hp
    refine ⟨cs ++ lines.flatMap Line.text, ?_⟩
    rw [← List.nil_append c.refill.2.unread, ← huses.text, hunread, List.cons_append]
  have hpos := p.credit_pos
  generalize hmove : c.turn p = move
  cases turn_eq_iff.1 hmove with
  | act hwants =>
    obtain ⟨used, hspends⟩ := exists_spends_act hfits hwants
    exact ⟨0, [], used, hspends⟩
  | failed _ hrefill =>
    rw [hrefill] at huses
    refine ⟨1, lines, [], ⟨huses, Nat.le_refl 1, ?_, trivial, fun _ _ => trivial⟩⟩
    simp only [Move.credit]
    omega
  | line _ hrefill =>
    rw [hrefill] at huses hline hlayout hfits'
    refine ⟨1, lines, [], ⟨huses, Nat.le_refl 1, ?_, hfits', ?_⟩⟩
    · simp only [Move.credit, hline rfl]
      omega
    · exact fun _ h => ⟨congrArg Layout.text hlayout ▸ h.1, h.2⟩
  | @atEnd c' _ hrefill =>
    rw [hrefill] at huses hlayout hfits'
    obtain ⟨used, hspends⟩ : ∃ used, c'.Spends p (c'.actAtEnd p) 0 [] used :=
      exists_spends_actAtEnd hfits'
    refine ⟨1, lines, used, ⟨?_, Nat.le_refl 1, ?_, hspends.fits, ?_⟩⟩
    · simpa using huses.trans hspends.uses
    · have hcredit := hspends.credit
      rw [List.length_nil] at hcredit
      omega
    · exact fun hused h =>
        hspends.unspent hused ⟨(congrArg Layout.text hlayout).trans h.1, h.2⟩

/-! ### The account of a call -/

/-- What the turns to an answer use, and how many there are of them. -/
theorem Answers.exists_uses {n : Nat} {p : Phase} {c : Converter}
    {answer : Except ReadError (Option Chunk) × Converter} (h : Answers n p c answer)
    (hfits : c.Fits p) :
    ∃ reads lines used, c.Uses answer.2 reads lines used ∧ reads ≤ n ∧
      n ≤ 2 * used.length + lines.length + p.credit ∧
      ∀ k, answer.1 = .ok (some k) → c.Unspent p → used ≠ [] := by
  induction h with
  | @last p c c' result hturn =>
    obtain ⟨reads, lines, used, hspends⟩ := exists_spends_turn hfits
    rw [hturn] at hspends
    refine ⟨reads, lines, used, hspends.uses, hspends.reads_le, ?_, ?_⟩
    · have hcredit := hspends.credit
      omega
    · rintro k rfl hunspent hused
      exact hspends.unspent hused hunspent
  | @onward n p p' c c' answer hturn _ ih =>
    obtain ⟨reads, lines, used, hspends⟩ := exists_spends_turn hfits
    rw [hturn] at hspends
    obtain ⟨more, lines', used', huses, hmore, hle, hchunk⟩ := ih hspends.fits
    refine ⟨reads + more, lines ++ lines', used ++ used', hspends.uses.trans huses, ?_, ?_, ?_⟩
    · have hreads := hspends.reads_le
      omega
    · have hcredit := hspends.credit
      simp only [Move.credit] at hcredit
      simp only [List.length_append]
      omega
    · intro k hk hunspent hnil
      obtain ⟨hused, hused'⟩ := List.append_eq_nil_iff.1 hnil
      exact hchunk k hk (hspends.unspent hused hunspent) hused'

/-- **The account of a call for the next chunk.** -/
theorem exists_uses_next (c : Converter) :
    ∃ turns reads lines used, Answers turns .between c.fresh c.next ∧
      c.Uses c.next.2 reads lines used ∧ reads ≤ turns ∧
      turns ≤ 2 * used.length + lines.length + 2 ∧
      ∀ k, c.next.1 = .ok (some k) → used ≠ [] := by
  obtain ⟨turns, hanswers⟩ := answers_next c
  obtain ⟨reads, lines, used, huses, hreads, hturns, hchunk⟩ := hanswers.exists_uses nofun
  exact ⟨turns, reads, lines, used, hanswers, ⟨huses.pulls, huses.text⟩, hreads, hturns,
    fun k hk => hchunk k hk ⟨rfl, .inl rfl⟩⟩

/-- The account of a whole conversion: each chunk takes a character at least. -/
theorem exists_uses_run (c : Converter) :
    ∃ reads lines used, c.Uses c.run.final reads lines used ∧
      c.run.chunks.length ≤ used.length := by
  rw [run_eq]
  fun_induction run c with
  | case1 c e c' hnext =>
    obtain ⟨-, reads, lines, used, -, huses, -⟩ := exists_uses_next c
    rw [hnext] at huses ⊢
    exact ⟨reads, lines, used, huses, Nat.zero_le _⟩
  | case2 c c' hnext =>
    obtain ⟨-, reads, lines, used, -, huses, -⟩ := exists_uses_next c
    rw [hnext] at huses ⊢
    exact ⟨reads, lines, used, huses, Nat.zero_le _⟩
  | case3 c k c' hnext _ _ ih =>
    obtain ⟨-, reads, lines, used, -, huses, -, -, hchunk⟩ := exists_uses_next c
    obtain ⟨more, lines', used', huses', hle⟩ := ih
    rw [hnext] at huses hchunk ⊢
    rw [← run_eq] at huses' hle
    refine ⟨reads + more, lines ++ lines', used ++ used', huses.trans huses', ?_⟩
    have hpos := List.length_pos_iff.2 (hchunk k rfl)
    rw [List.length_cons, List.length_append]
    omega

/-- **Conversions end.** In any state, with any charset, limit and stream: a call for the next
chunk is answered after a number of turns, no more than its lines and the characters it uses up
allow, with one read at most in each, and a byte at least for each line; a chunk uses up a
character at least. The chunks of a conversion are no more than the characters that were at hand
and are decoded, and its events come to an end. -/
theorem conversion_ends (c : Converter) :
    (∃ turns reads lines used, Answers turns .between c.fresh c.next ∧
        c.Uses c.next.2 reads lines used ∧ reads ≤ turns ∧
        turns ≤ 2 * used.length + lines.length + 2 ∧
        lines.length + c.next.2.reader.remaining ≤ c.reader.remaining ∧
        ∀ k, c.next.1 = .ok (some k) → used ≠ []) ∧
      (∃ reads lines, c.reader.Pulls reads lines c.run.final.reader ∧
        c.run.chunks.length ≤ c.unread.length + (lines.flatMap Line.text).length) ∧
      ∃ told : List (Except ReadError Event), told.length ≤ 3 * c.run.chunks.length + 2 ∧
        (c.events.take (told.length + 1)).1 = told.map some ++ [none] := by
  refine ⟨?_, ?_, c.events.all.1, c.length_all_events_le, ?_⟩
  · obtain ⟨turns, reads, lines, used, hanswers, huses, hreads, hturns, hchunk⟩ :=
      exists_uses_next c
    exact ⟨turns, reads, lines, used, hanswers, huses, hreads, hturns,
      huses.pulls.length_lines_le, hchunk⟩
  · obtain ⟨reads, lines, used, huses, hle⟩ := exists_uses_run c
    refine ⟨reads, lines, huses.pulls, ?_⟩
    have hlen := congrArg List.length huses.text
    rw [List.length_append, List.length_append] at hlen
    omega
  · rw [EventStream.take_eq, List.replicate_succ, ← List.singleton_append, ← List.append_assoc]
    exact List.take_left' (by simp)

end Converter

end BodyText
