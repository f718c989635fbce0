import BodyText.Converter.Run
import BodyText.Proofs.Lines
import BodyText.Proofs.Passages
import BodyText.Proofs.Supply

/-!
# What a conversion delivers

A converter that reads an unbroken stream never fails, and what it does is told by the lines that
its reader will read. Those lines and the text at hand are the supply of the converter
(`Converter.supply`); reading an item from the converter is reading it from the supply
(`Converter.readItem_of_steady`), and the whole conversion delivers the items that the supply holds
(`Converter.delivers_run`).
-/

namespace BodyText

/-- Writers that differ by notes about degraded lines only, made if `p`. -/
inductive Writer.Noted (p : Prop) (w : Writer) : Writer → Prop
  /-- Nothing was noted. -/
  | refl : Noted p w w
  /-- A line more was noted. -/
  | note {w' : Writer} (line : Nat) : p → Noted p w w' → Noted p w (w'.noteDegraded line)

theorem Writer.Noted.trans {p : Prop} {w w' w'' : Writer} (h : Noted p w w')
    (h' : Noted p w' w'') : Noted p w w'' := by
  induction h' with
  | refl => exact h
  | note line hp _ ih => exact ih.note line hp

theorem Writer.Delivers.of_noted {p : Prop} {w w' v : Writer} {items : List Item}
    {ks : List Chunk} (h : Delivers p w' items ks v) (hnoted : Noted p w w') :
    Delivers p w items ks v := by
  induction hnoted with
  | refl => exact h
  | note line hp _ ih => exact ih (.noted line hp h)

namespace Converter

/-- The text that a converter has and will read. -/
def supply (c : Converter) : Supply := ⟨c.unread, c.reader.lines.map Line.text⟩

/-- A converter that reads an unbroken stream, with degraded lines to come only if `p`. -/
structure Steady (p : Prop) (c : Converter) : Prop where
  /-- The reader is between two lines of an unbroken stream. -/
  reader : c.reader.Steady
  /-- There are degraded lines only if `p`. -/
  degraded : ∀ line ∈ c.reader.lines, line.degraded = true → p

variable {p : Prop} {c : Converter}

theorem Steady.withUnread (h : c.Steady p) (cs : List Char) : (c.withUnread cs).Steady p :=
  ⟨h.reader, h.degraded⟩

/-- A converter that got from `c` to the supply `s` by reading alone. -/
structure Reads (p : Prop) (c : Converter) (s : Supply) (c' : Converter) : Prop where
  /-- The converter is steady still. -/
  steady : c'.Steady p
  /-- What is left to read. -/
  supply : c'.supply = s
  /-- Nothing was written. -/
  noted : Writer.Noted p c.writer c'.writer

theorem Reads.trans {c' c'' : Converter} {s s' : Supply} (h : c.Reads p s c')
    (h' : c'.Reads p s' c'') : c.Reads p s' c'' :=
  ⟨h'.steady, h'.supply, h.noted.trans h'.noted⟩

theorem Reads.of_withUnread {c' : Converter} {cs : List Char} {s : Supply}
    (h : (c.withUnread cs).Reads p s c') : c.Reads p s c' :=
  ⟨h.steady, h.supply, h.noted⟩

theorem Reads.withUnread {c' : Converter} {s : Supply} (h : c.Reads p s c') (cs : List Char) :
    c.Reads p ⟨cs, s.later⟩ (c'.withUnread cs) :=
  ⟨h.steady.withUnread cs, by rw [← h.supply]; rfl, h.noted⟩

/-! ### Reading on -/

/-- A line more is the next part of the supply; without one the input is at its end. -/
theorem refill_of_steady (h : c.Steady p) :
    (c.supply.later = [] ∧
        ∃ c', c.refill = (.ok false, c') ∧ c.Reads p c.supply c' ∧ c'.writer = c.writer) ∨
      ∃ part parts c', c.supply.later = part :: parts ∧ c.refill = (.ok true, c') ∧
        c.Reads p ⟨c.unread ++ part, parts⟩ c' := by
  rcases Reader.pull_of_steady h.reader with
    ⟨hlines, r', hpull, hsteady, hlines'⟩ | ⟨line, later, r', hlines, hpull, hsteady, hlater⟩
  · left
    refine ⟨by rw [supply, hlines, List.map_nil], { c with reader := r' }, ?_, ⟨?_, ?_, .refl⟩, rfl⟩
    · rw [refill, hpull]
    · refine ⟨hsteady, ?_⟩
      intro line hline
      rw [hlines'] at hline
      exact absurd hline List.not_mem_nil
    · rw [supply, supply, hlines, hlines']
  · right
    have hdegraded : ∀ l ∈ line :: later, l.degraded = true → p := hlines ▸ h.degraded
    refine ⟨line.text, later.map Line.text, _, by rw [supply, hlines, List.map_cons],
      by rw [refill, hpull], ⟨⟨hsteady, fun l hl => ?_⟩, ?_, ?_⟩⟩
    · exact hdegraded l (List.mem_cons_of_mem line (hlater ▸ hl))
    · rw [supply, hlater]
    · by_cases hline : line.degraded = true
      · simp only [hline, if_true]
        exact .note r'.lineNumber (hdegraded line List.mem_cons_self hline) .refl
      · simp only [hline]
        exact .refl

theorem readUntil_of_steady (enough : List Char → Bool) (h : c.Steady p) :
    ∃ b c', c.readUntil enough = (.ok b, c') ∧
      c.Reads p (Supply.gather enough c.unread c.supply.later) c' := by
  -- by induction on the parts that are still to come
  generalize hlater : c.supply.later = parts
  induction parts generalizing c with
  | nil =>
    rw [readUntil_eq, Supply.gather]
    have hsupply : c.supply = ⟨c.unread, []⟩ := by rw [← hlater]; rfl
    by_cases henough : enough c.unread = true
    · rw [if_pos henough]
      exact ⟨true, c, rfl, h, hsupply, .refl⟩
    · rw [if_neg henough]
      rcases refill_of_steady h with ⟨-, c', hrefill, hreads, -⟩ | ⟨part, parts, c', hcons, -, -⟩
      · rw [hrefill]
        exact ⟨false, c', rfl, hsupply ▸ hreads⟩
      · rw [hlater] at hcons
        cases hcons
  | cons part parts ih =>
    rw [readUntil_eq, Supply.gather]
    by_cases henough : enough c.unread = true
    · rw [if_pos henough, if_pos henough]
      exact ⟨true, c, rfl, h, by rw [← hlater]; rfl, .refl⟩
    · rw [if_neg henough, if_neg henough]
      rcases refill_of_steady h with ⟨hnil, -⟩ | ⟨part', parts', c', hcons, hrefill, hreads⟩
      · rw [hlater] at hnil
        cases hnil
      · rw [hlater, List.cons.injEq] at hcons
        obtain ⟨rfl, rfl⟩ := hcons
        rw [hrefill]
        have hunread : c'.unread = c.unread ++ part := congrArg Supply.atHand hreads.supply
        obtain ⟨b, c'', hread, hreads'⟩ := ih hreads.steady (congrArg Supply.later hreads.supply)
        rw [hunread] at hreads'
        exact ⟨b, c'', hread, hreads.trans hreads'⟩

/-! ### Reading an item -/

theorem skipBlock_of_steady (h : c.Steady p) (b : Block) (rest : List Char) :
    ∃ c', (c.withUnread rest).skipBlock b = (.ok (c.supply.readItem (.block b rest)).1, c') ∧
      c.Reads p (c.supply.readItem (.block b rest)).2 c' := by
  obtain ⟨found, c', hread, hreads⟩ :=
    readUntil_of_steady (Search.marker b.closing).occurs (h.withUnread rest)
  have hunread := congrArg Supply.atHand hreads.supply
  have hatHand : c'.unread =
      (Supply.gather (fun cs => (b.closed? cs).isSome) rest c.supply.later).atHand := hunread
  rw [skipBlock, search_eq_readUntil, hread, Supply.readItem, ← hatHand]
  exact ⟨_, rfl, hreads.of_withUnread.withUnread _⟩

theorem readTag_of_steady (h : c.Steady p) (rest : List Char) :
    ∃ c', (c.withUnread rest).readTag = (.ok (c.supply.readItem (.tag rest)).1, c') ∧
      c.Reads p (c.supply.readItem (.tag rest)).2 c' := by
  obtain ⟨found, c', hread, hreads⟩ :=
    readUntil_of_steady (Search.char '>').occurs (h.withUnread rest)
  have hunread := congrArg Supply.atHand hreads.supply
  have hatHand : c'.unread =
      (Supply.gather (fun cs => cs.contains '>') rest c.supply.later).atHand := hunread
  have hfound : (if found = true then splitAt? '>' c'.unread else none) =
      splitAt? '>' c'.unread := by
    have henough : c'.unread.contains '>' = found := enough_of_readUntil hread
    cases found with
    | true => rfl
    | false => exact (splitAt?_eq_none_iff.2 (by simpa using henough)).symm
  rw [readTag, search_eq_readUntil, hread]
  simp only [hfound]
  rw [Supply.readItem, ← hatHand]
  cases splitAt? '>' c'.unread with
  | some parts => exact ⟨_, rfl, hreads.of_withUnread.withUnread _⟩
  | none => exact ⟨c', rfl, hreads.of_withUnread⟩

theorem readReference_of_steady (h : c.Steady p) (rest : List Char) :
    ∃ c', c.readReference = (.ok (c.supply.readItem (.ampersand rest)).1, c') ∧
      c.Reads p (c.supply.readItem (.ampersand rest)).2 c' := by
  obtain ⟨found, c', hread, hreads⟩ := readUntil_of_steady Reference.settled h
  have hunread := congrArg Supply.atHand hreads.supply
  have hatHand : c'.unread =
      (Supply.gather Reference.settled c.supply.atHand c.supply.later).atHand := hunread
  rw [readReference, hread, Supply.readItem, ← hatHand]
  cases htoken : Reference.token? c'.unread with
  | some parts =>
    simp only [htoken]
    exact ⟨_, rfl, hreads.withUnread _⟩
  | none =>
    simp only [htoken]
    exact ⟨_, rfl, hreads.withUnread _⟩

/-- Reading an item from a steady converter is reading it from the supply. -/
theorem readItem_of_steady (h : c.Steady p) (head : Head) :
    ∃ c', c.readItem head = (.ok (c.supply.readItem head).1, c') ∧
      c.Reads p (c.supply.readItem head).2 c' := by
  cases head with
  | block b rest => exact skipBlock_of_steady h b rest
  | tag rest => exact readTag_of_steady h rest
  | ampersand rest => exact readReference_of_steady h rest
  | blank d rest => exact ⟨_, rfl, h.withUnread rest, rfl, .refl⟩
  | char d rest => exact ⟨_, rfl, h.withUnread rest, rfl, .refl⟩

/-! ### A chunk -/

/-- What the next chunk does to a writer: from it, the items of `s` come to the chunk and to what
the items of `s'` come to from the writer that the chunk left. -/
def Hands (p : Prop) (w : Writer) (s : Supply) (k : Chunk) (w' : Writer) (s' : Supply) : Prop :=
  ∀ ks v, Writer.Delivers p w'.renew s'.items ks v → Writer.Delivers p w s.items (k :: ks) v

/-- What stepping on to the next chunk comes to: the input ends, or there is one. -/
inductive Advances (p : Prop) (c : Converter) :
    Except ReadError (Option Chunk) × Converter → Prop
  /-- The input ended. -/
  | ended {c' : Converter} : Writer.Delivers p c.writer c.supply.items [] c'.writer →
      Advances p c (.ok none, c')
  /-- A chunk is there. -/
  | chunk {c' : Converter} {k : Chunk} : c'.Steady p →
      Hands p c.writer c.supply k c'.writer c'.supply → Advances p c (.ok (some k), c')

/-- Reading alone does not change what is to come of a converter. -/
theorem Advances.of_reads {c' : Converter} {s : Supply}
    {result : Except ReadError (Option Chunk) × Converter} (hreads : c.Reads p s c')
    (hitems : s.items = c.supply.items) (h : Advances p c' result) : Advances p c result := by
  have hsame : c'.supply.items = c.supply.items := by rw [hreads.supply, hitems]
  cases h with
  | ended hdelivers => exact .ended ((hsame ▸ hdelivers).of_noted hreads.noted)
  | chunk hsteady hhands =>
    refine .chunk hsteady ?_
    intro ks v hks
    exact (hsame ▸ hhands ks v hks).of_noted hreads.noted

/-- A converter with no text at hand. -/
theorem advances_atEnd (h : c.Steady p) (hnone : Head.of? c.unread = none)
    (ih : ∀ c', c.step = (.ok .more, c') → c'.Steady p → Advances p c' c'.advance) :
    Advances p c c.advance := by
  have hunread : c.unread = [] := Head.of?_eq_none_iff.1 hnone
  have hstep : c.step = c.stepAtEnd := by rw [step, hnone]
  rw [stepAtEnd] at hstep
  by_cases htext : c.writer.layout.text = ""
  · rw [htext, if_pos (by rfl)] at hstep
    rcases refill_of_steady h with
      ⟨hlater, c', hrefill, hreads, hwriter⟩ | ⟨part, parts, c', hlater, hrefill, hreads⟩
    · -- the input is at its end
      rw [hrefill] at hstep
      rw [advance_eq, hstep]
      have hitems : c.supply.items = [] := by
        have hsupply : c.supply = ⟨[], []⟩ := by rw [← hunread, ← hlater]; rfl
        rw [hsupply, Supply.items_nil]
      refine .ended ?_
      rw [hitems, noteEnd, hwriter]
      exact .ended htext
    · -- a line was read
      rw [hrefill] at hstep
      rw [advance_eq, hstep]
      refine (ih c' hstep hreads.steady).of_reads hreads ?_
      have hsupply : c.supply = ⟨[], part :: parts⟩ := by rw [← hunread, ← hlater]; rfl
      rw [hsupply, Supply.items_cons, hunread, List.nil_append]
  · -- what was written is handed out
    rw [if_neg (by simpa using htext)] at hstep
    rw [advance_eq, hstep]
    refine .chunk ⟨h.reader, h.degraded⟩ ?_
    intro ks v hks
    exact .cut htext hks

/-- A converter with an item at hand. -/
theorem advances_of_head {head : Head} (h : c.Steady p) (hhead : Head.of? c.unread = some head)
    (ih : ∀ c', c.step = (.ok .more, c') → c'.Steady p → Advances p c' c'.advance) :
    Advances p c c.advance := by
  obtain ⟨c', hread, hreads⟩ := readItem_of_steady h head
  have hitems : c.supply.items = (c.supply.readItem head).1 :: c'.supply.items := by
    rw [hreads.supply]
    exact Supply.items_of_head hhead
  have hstep : c.step =
      (.ok (c'.writeItem (c.supply.readItem head).1).1,
        (c'.writeItem (c.supply.readItem head).1).2) := by
    rw [step, hhead]
    simp only [hread]
  rw [writeItem] at hstep
  generalize hwrite : c'.writer.write (c.supply.readItem head).1 = result at hstep
  obtain ⟨k?, w⟩ := result
  cases k? with
  | none =>
    have hmore := ih _ hstep ⟨hreads.steady.reader, hreads.steady.degraded⟩
    rw [advance_eq, hstep]
    change Advances p c (advance { c' with writer := w })
    change Advances p { c' with writer := w } (advance { c' with writer := w }) at hmore
    generalize advance { c' with writer := w } = result at hmore ⊢
    cases hmore with
    | ended hdelivers =>
      refine .ended ?_
      rw [hitems]
      exact (Writer.Delivers.written hwrite hdelivers).of_noted hreads.noted
    | chunk hsteady hhands =>
      refine .chunk hsteady ?_
      intro ks v hks
      rw [hitems]
      exact (Writer.Delivers.written hwrite (hhands ks v hks)).of_noted hreads.noted
  | some k =>
    rw [advance_eq, hstep]
    refine .chunk ⟨hreads.steady.reader, hreads.steady.degraded⟩ ?_
    intro ks v hks
    rw [hitems]
    exact (Writer.Delivers.linked hwrite hks).of_noted hreads.noted

/-- Stepping on to the next chunk never fails, and does with the writer what it should. -/
theorem advances (h : c.Steady p) : Advances p c c.advance := by
  induction hsize : c.size using WellFounded.induction
      (Prod.lex Nat.lt_wfRel Nat.lt_wfRel).wf generalizing c with
  | _ size ih =>
    subst hsize
    have hmore : ∀ c', c.step = (.ok .more, c') → c'.Steady p → Advances p c' c'.advance :=
      fun c' hstep hc' => ih c'.size (precedes_of_step_more hstep).lex hc' rfl
    cases hhead : Head.of? c.unread with
    | none => exact advances_atEnd h hhead hmore
    | some head => exact advances_of_head h hhead hmore

/-! ### A whole conversion -/

/-- **What a conversion of an unbroken stream delivers**: it does not fail, and its writer hands out
the items of the supply. -/
theorem delivers_run (h : c.Steady p) :
    c.run.failure = none ∧
      Writer.Delivers p c.writer.renew c.supply.items (c.run.chunks.map Prod.fst)
        c.run.final.writer := by
  induction hsize : c.size using WellFounded.induction
      (Prod.lex Nat.lt_wfRel Nat.lt_wfRel).wf generalizing c with
  | _ size ih =>
    subst hsize
    have hfresh : c.fresh.Steady p := ⟨h.reader, h.degraded⟩
    have hadvances := advances hfresh
    rw [run_eq]
    generalize hnext : c.next = result
    rw [show c.fresh.advance = result from hnext] at hadvances
    cases hadvances with
    | ended hdelivers => exact ⟨rfl, hdelivers⟩
    | chunk hsteady hhands =>
      obtain ⟨hfailure, hdelivers⟩ := ih _ (precedes_of_next hnext).lex hsteady rfl
      exact ⟨hfailure, hhands _ _ hdelivers⟩

end Converter

end BodyText
