import BodyText.Proofs.Turns
import BodyText.Proofs.ValidText

/-!
# The text ahead

Ahead of a converter lies the text at hand, and behind it the lines that are still to be read, up
to the end of the input (`Converter.ahead`). Where one line ends and the next begins is up to the
input, the charset and the line limit. Reading on for an item moves lines to what is at hand, and
leaves what lies ahead as it is (`Converter.readOn_of_readable`); so the item is the one that the
text ahead tells, wherever the lines end. A tag ends at the first `>` ahead, a block at the first
closing ahead, and neither ends where there is none (`Converter.terminators_exact`).
-/

namespace BodyText

/-! ### Reading to the end of the input -/

/-- A stream that never fails. It may pause. -/
def Stream.Unfailing (s : Stream) : Prop := ∀ cause, .failure cause ∉ s

theorem Stream.takeLine_of_unfailing {s : Stream} (h : s.Unfailing) (room : Nat) :
    ∃ taken s', s.takeLine room = (.ok taken, s') ∧ s'.Unfailing := by
  fun_induction takeLine room s with
  | case1 => exact ⟨_, _, rfl, h⟩
  | case2 room s => exact ⟨_, _, rfl, fun cause hmem => h cause (List.mem_cons_of_mem _ hmem)⟩
  | case3 room s ih => exact ih fun cause hmem => h cause (List.mem_cons_of_mem _ hmem)
  | case4 room cause s => exact absurd List.mem_cons_self (h cause)
  | case5 room bs s head hstop =>
    refine ⟨_, _, rfl, fun cause hmem => h cause ?_⟩
    rw [putBack] at hmem
    split at hmem
    · exact List.mem_cons_of_mem _ hmem
    · rcases List.mem_cons.1 hmem with hsegment | hmem
      · cases hsegment
      · exact List.mem_cons_of_mem _ hmem
  | case6 room bs s head hgo more rest hrest ih =>
    obtain ⟨taken, s', htake, hs'⟩ := ih fun cause hmem => h cause (List.mem_cons_of_mem _ hmem)
    rw [hrest] at htake
    cases htake
    exact ⟨_, _, rfl, hs'⟩
  | case7 room bs s head hgo e rest hrest ih =>
    obtain ⟨taken, s', htake, -⟩ := ih fun cause hmem => h cause (List.mem_cons_of_mem _ hmem)
    rw [hrest] at htake
    cases htake

namespace Reader

/-- From a reader, lines are read up to the end of the input, which leaves another reader. -/
inductive EndsIn : Reader → Reader → Prop
  /-- The input ends at once. -/
  | ended {r r' : Reader} : r.pull = (.ok none, r') → EndsIn r r'
  /-- A line is read first. -/
  | line {r r' r'' : Reader} {line : Line} : r.pull = (.ok (some line), r') → EndsIn r' r'' →
      EndsIn r r''

theorem remaining_of_lines {r : Reader} (h : r.Steady) (hlines : r.lines = []) :
    r.remaining = 0 := by
  by_cases hpending : r.pending = []
  · rw [remaining, ← List.length_append]
    exact congrArg List.length hpending
  · rw [lines, Charset.linesOf_eq_cons _ (Nat.zero_lt_of_lt h.roomy) hpending] at hlines
    cases hlines

/-- At the end of an input that does not pause, nothing remains. -/
theorem EndsIn.remaining {r r' : Reader} (h : r.EndsIn r') (hsteady : r.Steady) :
    r'.remaining = 0 := by
  induction h with
  | ended hpull =>
    rcases pull_of_steady hsteady with ⟨hlines, -⟩ | ⟨_, _, _, -, hline, -⟩
    · rw [remaining_of_pull_none hpull, remaining_of_lines hsteady hlines]
    · rw [hpull] at hline
      cases hline
  | line hpull _ ih =>
    rcases pull_of_steady hsteady with ⟨-, _, hend, -⟩ | ⟨_, _, _, -, hline, hsteady', -⟩
    · rw [hpull] at hend
      cases hend
    · rw [hpull] at hline
      cases hline
      exact ih hsteady'

theorem stream_settle (r : Reader) (raw : List UInt8) : (r.settle raw).2.stream = r.stream := by
  unfold settle
  split <;> rfl

theorem pull_of_unfailing {r : Reader} (h : r.stream.Unfailing) :
    ∃ line? r', r.pull = (.ok line?, r') ∧ r'.stream.Unfailing := by
  obtain ⟨taken, s, htake, hs⟩ := Stream.takeLine_of_unfailing h (r.limit - r.carry.length)
  rw [pull, htake]
  exact ⟨_, _, rfl, (stream_settle { r with stream := s } _).symm ▸ hs⟩

/-- A reader of a stream that never fails reads to the end of its input. -/
theorem failure_run_of_unfailing {r : Reader} (h : r.stream.Unfailing) : r.run.failure = none := by
  fun_induction run r with
  | case1 r e r' hpull =>
    obtain ⟨line?, r₁, hpull₁, -⟩ := pull_of_unfailing h
    rw [hpull] at hpull₁
    cases hpull₁
  | case2 => rfl
  | case3 r line r' hpull _ later ih =>
    obtain ⟨line?, r₁, hpull₁, hr₁⟩ := pull_of_unfailing h
    rw [hpull] at hpull₁
    cases hpull₁
    exact ih hr₁

end Reader

/-! ### The ends of tags and blocks -/

theorem Head.eq_cons_of_tag {cs rest : List Char} (h : Head.of? cs = some (.tag rest)) :
    cs = '<' :: rest := by
  rw [Head.of?.eq_def] at h
  split at h
  · cases h
  · cases h
  · split at h
    · rename_i hlt
      split at h
      · cases h
      · cases h
        rw [hlt]
    · split at h
      · cases h
      · split at h <;> cases h

namespace Block

/-- A text that closes a block. The letters of a closing are of either case. -/
def Closes : Block → List Char → Prop
  | comment, mark => mark = closing comment
  | style, mark => lower mark = closing style
  | script, mark => lower mark = closing script

theorem closes_iff {b : Block} {mark : List Char} : b.Closes mark ↔ lower mark = b.closing := by
  cases b with
  | comment =>
    constructor
    · rintro rfl
      rfl
    · intro hmark
      obtain ⟨c, cs, rfl, hc, hcs⟩ := List.map_eq_cons_iff.1 hmark
      obtain ⟨d, ds, rfl, hd, hds⟩ := List.map_eq_cons_iff.1 hcs
      obtain ⟨e, es, rfl, he, hes⟩ := List.map_eq_cons_iff.1 hds
      rw [eq_of_toLower rfl hc, eq_of_toLower rfl hd, eq_of_toLower rfl he,
        List.map_eq_nil_iff.1 hes]
      rfl
  | style => exact Iff.rfl
  | script => exact Iff.rfl

/-- The first closing of a block in a text, with the text before it and the text behind it. -/
structure FirstClosing (b : Block) (cs before mark after : List Char) : Prop where
  /-- The three texts make up the whole. -/
  eq : cs = before ++ mark ++ after
  /-- The one in the middle is a closing. -/
  closes : b.Closes mark
  /-- No closing stands further ahead. -/
  first : ∀ before' mark' after', cs = before' ++ mark' ++ after' → b.Closes mark' →
    before.length ≤ before'.length

/-- What follows the first closing is what is left of the text. -/
theorem FirstClosing.closed?_eq {b : Block} {cs before mark after : List Char}
    (h : b.FirstClosing cs before mark after) : b.closed? cs = some after := by
  obtain ⟨rfl, hcloses, hfirst⟩ := h
  rw [closes_iff] at hcloses
  rw [closed?]
  induction before with
  | nil => exact past?_of_after? (after?_eq_some_iff.2 ⟨mark, rfl, hcloses⟩)
  | cons c before ih =>
    have hafter : after? b.closing (c :: (before ++ mark ++ after)) = none := by
      refine Option.eq_none_iff_forall_ne_some.2 fun rest hrest => ?_
      obtain ⟨head, hcs, hhead⟩ := after?_eq_some_iff.1 hrest
      have hlen := hfirst [] head rest hcs (closes_iff.2 hhead)
      simp at hlen
    rw [List.cons_append, List.cons_append, past?, hafter]
    refine ih fun before' mark' after' hcs hmark' => ?_
    have hlen := hfirst (c :: before') mark' after' (congrArg (c :: ·) hcs) hmark'
    simpa using hlen

/-- A block is not closed in a text where no closing stands. -/
theorem closed?_eq_none {b : Block} {cs : List Char} (h : ∀ mark, b.Closes mark → ¬ mark <:+: cs) :
    b.closed? cs = none := by
  refine Option.eq_none_iff_forall_ne_some.2 fun rest hrest => ?_
  obtain ⟨before, mark, hcs, hmark⟩ := eq_append_of_past? hrest
  exact h mark (closes_iff.2 hmark) ⟨before, rest, hcs.symm⟩

end Block

namespace Supply

/-- Reads on for something, and takes the item off the text that is then at hand. -/
def readOn (s : Supply) (q : Quest) : Item × Supply :=
  let found := gather q.met s.atHand s.later
  ((q.item found.atHand).1, ⟨(q.item found.atHand).2, found.later⟩)

/-- Whether reading on finds what it is for. -/
def Finds (s : Supply) (q : Quest) : Bool := q.met (gather q.met s.atHand s.later).atHand

variable {s : Supply} {q : Quest}

theorem text_gather_met (s : Supply) (q : Quest) :
    (gather q.met s.atHand s.later).atHand ++ (gather q.met s.atHand s.later).later.flatten =
      s.text :=
  text_gather q.met s.atHand s.later

/-- Where it does not, all of the text is at hand. -/
theorem gather_of_not_finds (h : s.Finds q = false) :
    gather q.met s.atHand s.later = ⟨s.text, []⟩ := by
  have hlater : (gather q.met s.atHand s.later).later = [] :=
    (enough_gather q.met s.atHand s.later).resolve_left (Bool.eq_false_iff.1 h)
  have htext := s.text_gather_met q
  rw [hlater, List.flatten_nil, List.append_nil] at htext
  rw [← hlater]
  exact congrArg (Supply.mk · _) htext

theorem readOn_of_not_finds (h : s.Finds q = false) :
    s.readOn q = ((q.item s.text).1, ⟨(q.item s.text).2, []⟩) := by
  rw [readOn, gather_of_not_finds h]

/-- A tag reaches to the first `>` of the text. -/
theorem readOn_tagEnd {text after : List Char} (h : s.text = text ++ '>' :: after)
    (hno : '>' ∉ text) :
    s.Finds .tagEnd = true ∧ (s.readOn .tagEnd).1 = .tag text ∧
      (s.readOn .tagEnd).2.text = after := by
  have hsplit : splitAt? '>' s.text = some (text, after) := by
    rw [h, splitAt?_of_not_mem hno]
  have hfinds : s.Finds .tagEnd = true := by
    refine Bool.of_not_eq_false fun hnot => ?_
    have hmem : s.text.contains '>' = false := by
      rw [Finds, gather_of_not_finds hnot] at hnot
      exact hnot
    rw [h] at hmem
    simp at hmem
  have hmem : '>' ∈ (gather Quest.tagEnd.met s.atHand s.later).atHand :=
    List.contains_iff_mem.1 hfinds
  rw [← s.text_gather_met .tagEnd, splitAt?_append hmem] at hsplit
  obtain ⟨⟨text', rest⟩, hfound, heq⟩ := Option.map_eq_some_iff.1 hsplit
  cases heq
  refine ⟨hfinds, ?_, ?_⟩
  · simp only [readOn, Quest.item, hfound]
  · simp only [readOn, Quest.item, hfound, Supply.text]

/-- Without a `>` it reaches to the end, and is no tag. -/
theorem readOn_tagEnd_of_not_mem (h : '>' ∉ s.text) :
    s.Finds .tagEnd = false ∧ s.readOn .tagEnd = (.unclosed s.text, ⟨s.text, []⟩) := by
  have hfinds : s.Finds .tagEnd = false := by
    refine Bool.eq_false_iff.2 fun hfinds => h ?_
    rw [← s.text_gather_met .tagEnd]
    exact List.mem_append_left _ (List.contains_iff_mem.1 hfinds)
  refine ⟨hfinds, ?_⟩
  rw [readOn_of_not_finds hfinds, Quest.item, splitAt?_eq_none_iff.2 h]

theorem closed?_of_finds {b : Block} (h : s.Finds (.closing b) = true) :
    b.closed? s.text = some (s.readOn (.closing b)).2.text := by
  obtain ⟨rest, hrest⟩ := Option.isSome_iff_exists.1
    (show (past? b.closing (gather (Quest.closing b).met s.atHand s.later).atHand).isSome = true
      from h)
  rw [← s.text_gather_met (.closing b), Block.closed?, past?_append_of_some hrest, readOn, text]
  simp only [Quest.item, Block.closed?, hrest, Option.getD_some]

/-- A block reaches through its first closing, or to the end where there is none. -/
theorem readOn_closing (s : Supply) (b : Block) :
    (s.readOn (.closing b)).1 = .skipped ∧
      s.Finds (.closing b) = (b.closed? s.text).isSome ∧
      (s.readOn (.closing b)).2.text = (b.closed? s.text).getD [] := by
  cases hfinds : s.Finds (.closing b) with
  | true =>
    rw [closed?_of_finds hfinds]
    exact ⟨rfl, rfl, rfl⟩
  | false =>
    have hnone : b.closed? s.text = none := by
      rw [Finds, gather_of_not_finds hfinds] at hfinds
      exact Option.isSome_eq_false_iff.1 hfinds |> Option.isNone_iff_eq_none.1
    rw [readOn_of_not_finds hfinds, hnone]
    refine ⟨rfl, rfl, ?_⟩
    rw [Quest.item, hnone]
    rfl

end Supply

namespace Converter

/-! ### What lies ahead -/

/-- The text at hand, and that of the lines up to the end of the input. -/
def outlook (c : Converter) : Supply := ⟨c.unread, c.reader.run.lines.map Line.text⟩

/-- All the text that lies ahead of a converter. -/
def ahead (c : Converter) : List Char := c.outlook.text

/-- A line ahead is degraded. -/
def Degrades (c : Converter) : Prop := ∃ line ∈ c.reader.run.lines, line.degraded = true

/-- A converter that reads to the end of its input without a failure, with degraded lines only if
`p`. -/
structure Readable (p : Prop) (c : Converter) : Prop where
  /-- No read fails. -/
  failure : c.reader.run.failure = none
  /-- There are degraded lines only if `p`. -/
  degraded : ∀ line ∈ c.reader.run.lines, line.degraded = true → p

theorem readable_of_failure {c : Converter} (h : c.reader.run.failure = none) :
    c.Readable c.Degrades :=
  ⟨h, fun line hline hdegraded => ⟨line, hline, hdegraded⟩⟩

variable {p : Prop} {c : Converter}

/-- A converter that read on from `c` and has the supply `s` before it, either within the input or
at its end. -/
inductive ReadsTo (p : Prop) (c : Converter) (s : Supply) (c' : Converter) : Bool → Prop
  /-- There may be more to read. -/
  | within : c'.outlook = s → c'.Readable p → Writer.Noted p c.writer c'.writer →
      ReadsTo p c s c' true
  /-- The end of the input was met. -/
  | atEnd : c'.unread = s.atHand → s.later = [] → c.reader.EndsIn c'.reader →
      Writer.Noted p c.writer c'.writer → ReadsTo p c s c' false

theorem ReadsTo.withUnread {c' : Converter} {s : Supply} {b : Bool} (h : c.ReadsTo p s c' b)
    (cs : List Char) : c.ReadsTo p ⟨cs, s.later⟩ (c'.withUnread cs) b := by
  cases h with
  | within hs hreadable hnoted =>
    exact .within (by rw [← hs]; rfl) ⟨hreadable.failure, hreadable.degraded⟩ hnoted
  | atEnd _ hlater hends hnoted => exact .atEnd rfl hlater hends hnoted

theorem ReadsTo.unread_eq {c' : Converter} {s : Supply} {b : Bool} (h : c.ReadsTo p s c' b) :
    c'.unread = s.atHand := by
  cases h with
  | within hs _ _ => exact congrArg Supply.atHand hs
  | atEnd hunread _ _ _ => exact hunread

theorem ReadsTo.noted {c' : Converter} {s : Supply} {b : Bool} (h : c.ReadsTo p s c' b) :
    Writer.Noted p c.writer c'.writer := by
  cases h with
  | within _ _ hnoted => exact hnoted
  | atEnd _ _ _ hnoted => exact hnoted

/-- Where reading on comes to from one line further on. -/
theorem ReadsTo.of_line {c' c'' : Converter} {s : Supply} {b : Bool} {line : Line}
    (h : c'.ReadsTo p s c'' b) (hpull : c.reader.pull = (.ok (some line), c'.reader))
    (hnoted : Writer.Noted p c.writer c'.writer) : c.ReadsTo p s c'' b := by
  cases h with
  | within hs hreadable hnoted' => exact .within hs hreadable (hnoted.trans hnoted')
  | atEnd hunread hlater hends hnoted' =>
    exact .atEnd hunread hlater (.line hpull hends) (hnoted.trans hnoted')

/-- A line more is the next part of what lies ahead; without one the input is at its end. -/
theorem refill_of_readable (h : c.Readable p) :
    (c.outlook.later = [] ∧
        ∃ r, c.reader.EndsIn r ∧ c.refill = (.ok false, { c with reader := r })) ∨
      ∃ line later c', c.reader.pull = (.ok (some line), c'.reader) ∧
        c.outlook.later = line.text :: later ∧ c.refill = (.ok true, c') ∧
        c'.outlook = ⟨c.unread ++ line.text, later⟩ ∧ c'.Readable p ∧
        Writer.Noted p c.writer c'.writer := by
  obtain ⟨hfailure, hdegraded⟩ := h
  have hrun := c.reader.run_eq
  rw [refill, outlook]
  generalize hpull : c.reader.pull = result at hrun
  rcases result with ⟨e | line?, r⟩
  · rw [hrun] at hfailure
    cases hfailure
  · cases line? with
    | none =>
      left
      rw [hrun]
      exact ⟨rfl, r, .ended hpull, rfl⟩
    | some line =>
      right
      rw [hrun] at hfailure hdegraded ⊢
      refine ⟨line, r.run.lines.map Line.text, _, rfl, rfl, rfl, rfl, ⟨hfailure, ?_⟩, ?_⟩
      · exact fun l hl => hdegraded l (List.mem_cons_of_mem line hl)
      · by_cases hline : line.degraded = true
        · simp only [hline, if_true]
          exact .note r.lineNumber (hdegraded line List.mem_cons_self hline) .refl
        · simp only [hline]
          exact .refl

/-- Reading on takes lines from what lies ahead until the text is enough. -/
theorem readUntil_of_readable (enough : List Char → Bool) (h : c.Readable p) :
    ∃ c', c.readUntil enough =
        (.ok (enough (Supply.gather enough c.unread c.outlook.later).atHand), c') ∧
      c.ReadsTo p (Supply.gather enough c.unread c.outlook.later) c'
        (enough (Supply.gather enough c.unread c.outlook.later).atHand) := by
  -- by induction on the lines that are still to come
  generalize hlater : c.outlook.later = parts
  induction parts generalizing c with
  | nil =>
    have houtlook : c.outlook = ⟨c.unread, []⟩ := by rw [← hlater]; rfl
    rw [readUntil_eq, Supply.gather]
    by_cases henough : enough c.unread = true
    · rw [if_pos henough, henough]
      exact ⟨c, rfl, .within houtlook h .refl⟩
    · rw [if_neg henough, Bool.eq_false_iff.2 henough]
      rcases refill_of_readable h with ⟨-, r, hends, hrefill⟩ | ⟨line, later, c', -, hcons, -⟩
      · rw [hrefill]
        exact ⟨_, rfl, .atEnd rfl rfl hends .refl⟩
      · rw [hlater] at hcons
        cases hcons
  | cons part parts ih =>
    rw [readUntil_eq, Supply.gather]
    by_cases henough : enough c.unread = true
    · rw [if_pos henough, if_pos henough, henough]
      exact ⟨c, rfl, .within (by rw [← hlater]; rfl) h .refl⟩
    · rw [if_neg henough, if_neg henough]
      rcases refill_of_readable h with
        ⟨hnil, -⟩ | ⟨line, later, c', hpull, hcons, hrefill, houtlook, hreadable, hnoted⟩
      · rw [hlater] at hnil
        cases hnil
      · rw [hlater, List.cons.injEq] at hcons
        obtain ⟨rfl, rfl⟩ := hcons
        have hunread : c'.unread = c.unread ++ line.text := congrArg Supply.atHand houtlook
        obtain ⟨c'', hread, hreads⟩ := ih hreadable (congrArg Supply.later houtlook)
        rw [hunread] at hread hreads
        rw [hrefill]
        exact ⟨c'', hread, hreads.of_line hpull hnoted⟩

/-- **Reading on takes an item off what lies ahead**, wherever the lines of that end. -/
theorem readOn_of_readable (q : Quest) (h : c.Readable p) :
    ∃ c', c.readOn q = (.ok (c.outlook.readOn q).1, c') ∧
      c.ReadsTo p (c.outlook.readOn q).2 c' (c.outlook.Finds q) := by
  obtain ⟨c', hread, hreads⟩ := readUntil_of_readable q.met h
  rw [readOn, hread]
  simp only [hreads.unread_eq]
  exact ⟨_, rfl, hreads.withUnread _⟩

/-! ### Where an item ends -/

/-- A converter that read on from `c` and has not met the end of the input: it stands before the
given text, and no line but those ahead of `c` was noted to be degraded. -/
structure StopsAt (c : Converter) (after : List Char) (c' : Converter) : Prop where
  /-- What lies ahead. -/
  ahead : c'.ahead = after
  /-- No read will fail. -/
  failure : c'.reader.run.failure = none
  /-- Nothing was written. -/
  noted : Writer.Noted c.Degrades c.writer c'.writer

/-- A converter that read on from `c` to the end of the input, and has the given text at hand. -/
structure RunsOut (c : Converter) (rest : List Char) (c' : Converter) : Prop where
  /-- What is left of the text. -/
  unread : c'.unread = rest
  /-- The end of the input was met. -/
  ends : c.reader.EndsIn c'.reader
  /-- Nothing remains, when the input does not pause. -/
  remaining : c.reader.Steady → c'.reader.remaining = 0
  /-- Nothing was written. -/
  noted : Writer.Noted c.Degrades c.writer c'.writer

theorem ReadsTo.stopsAt {c' : Converter} {s : Supply} (h : c.ReadsTo c.Degrades s c' true) :
    c.StopsAt s.text c' := by
  cases h with
  | within houtlook hreadable hnoted =>
    exact ⟨congrArg Supply.text houtlook, hreadable.failure, hnoted⟩

theorem ReadsTo.runsOut {c' : Converter} {s : Supply} (h : c.ReadsTo c.Degrades s c' false) :
    c.RunsOut s.text c' := by
  cases h with
  | atEnd hunread hlater hends hnoted =>
    refine ⟨?_, hends, hends.remaining, hnoted⟩
    rw [hunread, Supply.text, hlater, List.flatten_nil, List.append_nil]

/-- A tag that has a `>` ahead ends at the first one. -/
theorem readTag_of_mem (h : c.reader.run.failure = none) {text after : List Char}
    (hahead : c.ahead = text ++ '>' :: after) (hno : '>' ∉ text) :
    ∃ c', c.readTag = (.ok (.tag text), c') ∧ c.StopsAt after c' := by
  obtain ⟨c', hread, hreads⟩ := readOn_of_readable .tagEnd (readable_of_failure h)
  obtain ⟨hfinds, hitem, hafter⟩ := Supply.readOn_tagEnd hahead hno
  rw [hfinds] at hreads
  refine ⟨c', ?_, hafter ▸ hreads.stopsAt⟩
  rw [readTag_eq_readOn, hread, hitem]

/-- A tag that has no `>` ahead is none, and all of the text is at hand. -/
theorem readTag_of_not_mem (h : c.reader.run.failure = none) (hno : '>' ∉ c.ahead) :
    ∃ c', c.readTag = (.ok (.unclosed c.ahead), c') ∧ c.RunsOut c.ahead c' := by
  obtain ⟨c', hread, hreads⟩ := readOn_of_readable .tagEnd (readable_of_failure h)
  obtain ⟨hfinds, hreadOn⟩ := Supply.readOn_tagEnd_of_not_mem hno
  rw [hfinds, hreadOn] at hreads
  refine ⟨c', ?_, ?_⟩
  · rw [readTag_eq_readOn, hread, hreadOn]
    rfl
  · have hruns := hreads.runsOut
    rwa [Supply.text, List.flatten_nil, List.append_nil] at hruns

/-- A block with a closing ahead ends behind the first one. -/
theorem skipBlock_of_closing (h : c.reader.run.failure = none) {b : Block}
    {before mark after : List Char} (hfirst : b.FirstClosing c.ahead before mark after) :
    ∃ c', c.skipBlock b = (.ok .skipped, c') ∧ c.StopsAt after c' := by
  obtain ⟨c', hread, hreads⟩ := readOn_of_readable (.closing b) (readable_of_failure h)
  obtain ⟨hitem, hfinds, hafter⟩ := c.outlook.readOn_closing b
  rw [show b.closed? c.outlook.text = some after from hfirst.closed?_eq] at hfinds hafter
  rw [Option.getD_some] at hafter
  rw [hfinds] at hreads
  refine ⟨c', ?_, hafter ▸ hreads.stopsAt⟩
  rw [skipBlock_eq_readOn, hread, hitem]

/-- A block with no closing ahead takes all of the text. -/
theorem skipBlock_of_no_closing (h : c.reader.run.failure = none) {b : Block}
    (hnone : ∀ mark, b.Closes mark → ¬ mark <:+: c.ahead) :
    ∃ c', c.skipBlock b = (.ok .skipped, c') ∧ c.RunsOut [] c' := by
  obtain ⟨c', hread, hreads⟩ := readOn_of_readable (.closing b) (readable_of_failure h)
  obtain ⟨hitem, hfinds, hafter⟩ := c.outlook.readOn_closing b
  rw [show b.closed? c.outlook.text = none from Block.closed?_eq_none hnone] at hfinds hafter
  rw [Option.getD_none] at hafter
  rw [hfinds] at hreads
  refine ⟨c', ?_, hafter ▸ hreads.runsOut⟩
  rw [skipBlock_eq_readOn, hread, hitem]

/-- The `<` of a tag stands before what lies ahead of the converter that has used it up. -/
theorem ahead_of_tag {rest : List Char} (h : Head.of? c.unread = some (.tag rest)) :
    c.ahead = '<' :: (c.withUnread rest).ahead := by
  rw [ahead, outlook, Supply.text, Head.eq_cons_of_tag h]
  rfl

/-- **The end of an item is found wherever the lines end.** Of a converter that reads to the end of
its input without a failure: before the `<` of a tag, it reads the text up to the first `>` ahead
and stops behind that; where there is none, it uses the `<` up alone, with all of the text at hand,
and reports the tag once. In a block it stops behind the first closing ahead; where there is none,
it uses all of the text up. -/
theorem terminators_exact (c : Converter) (h : c.reader.run.failure = none) :
    (∀ rest, Head.of? c.unread = some (.tag rest) →
      (∀ text after, c.ahead = '<' :: (text ++ '>' :: after) → '>' ∉ text →
        ∃ c', c.readItem (.tag rest) = (.ok (.tag text), c') ∧ c.StopsAt after c') ∧
      ∀ behind, c.ahead = '<' :: behind → '>' ∉ behind →
        ∃ c', c.readItem (.tag rest) = (.ok (.unclosed behind), c') ∧ c.RunsOut behind c' ∧
          c.step = (.ok .more,
            { c' with writer := c'.writer.noteMarkup.report (.ofTag behind) })) ∧
    ∀ b : Block,
      (∀ before mark after, b.FirstClosing c.ahead before mark after →
        ∃ c', c.skipBlock b = (.ok .skipped, c') ∧ c.StopsAt after c') ∧
      ((∀ mark, b.Closes mark → ¬ mark <:+: c.ahead) →
        ∃ c', c.skipBlock b = (.ok .skipped, c') ∧ c.RunsOut [] c') := by
  refine ⟨fun rest hhead => ⟨fun text after hahead hno => ?_, fun behind hahead hno => ?_⟩,
    fun b => ⟨fun before mark after => skipBlock_of_closing h, skipBlock_of_no_closing h⟩⟩
  · have hrest : (c.withUnread rest).ahead = text ++ '>' :: after := by
      rw [ahead_of_tag hhead] at hahead
      exact (List.cons.inj hahead).2
    obtain ⟨c', hread, hstops⟩ := readTag_of_mem (c := c.withUnread rest) h hrest hno
    exact ⟨c', hread, hstops.ahead, hstops.failure, hstops.noted⟩
  · have hrest : (c.withUnread rest).ahead = behind := by
      rw [ahead_of_tag hhead] at hahead
      exact (List.cons.inj hahead).2
    rw [← hrest] at hno ⊢
    obtain ⟨c', hread, hruns⟩ := readTag_of_not_mem (c := c.withUnread rest) h hno
    refine ⟨c', hread, ⟨hruns.unread, hruns.ends, hruns.remaining, hruns.noted⟩, ?_⟩
    have hitem : c.readItem (.tag rest) = (.ok (.unclosed (c.withUnread rest).ahead), c') := hread
    rw [step, hhead]
    simp only [hitem]
    rfl

/-- A converter in the middle of a body, whose next tag takes three lines more. -/
def beforeTag : Converter where
  reader := .start [.segment [0x20, 0x68], .interrupted, .segment [0x72, 0x0A, 0x65, 0x66, 0x3E,
    0x2D, 0x2D]] .utf8 2
  unread := ['<', 'a']
  writer := { rule := "--", latin1 := false }

theorem terminators_exact_beforeTag :
    beforeTag.reader.run.failure = none ∧
      Head.of? beforeTag.unread = some (.tag ['a']) ∧
      (∃ c', beforeTag.readItem (.tag ['a']) =
          (.ok (.tag ['a', ' ', 'h', 'r', '\n', 'e', 'f']), c') ∧
        beforeTag.StopsAt ['-', '-'] c') ∧
      ∃ c', beforeTag.skipBlock .comment = (.ok .skipped, c') ∧ beforeTag.RunsOut [] c' := by
  have hfailure : beforeTag.reader.run.failure = none :=
    Reader.failure_run_of_unfailing (by intro cause; simp [beforeTag, Reader.start])
  have hhead : Head.of? beforeTag.unread = some (.tag ['a']) := rfl
  have hahead : beforeTag.ahead =
      ['<', 'a', ' ', 'h', 'r', '\n', 'e', 'f', '>', '-', '-'] := by cbv
  obtain ⟨htag, hblock⟩ := terminators_exact beforeTag hfailure
  refine ⟨hfailure, hhead, (htag ['a'] hhead).1 _ _ hahead (by decide), ?_⟩
  refine (hblock .comment).2 fun mark hmark => ?_
  rw [hahead, show mark = ['-', '-', '>'] from hmark]
  decide

end Converter

end BodyText
