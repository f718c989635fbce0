import BodyText.Proofs.Passages
import BodyText.Proofs.Scan

/-!
# Reading plain text

A text without `<` and `&` is read character by character, so nothing is read ahead: when all of it
was read, what is at hand is the end of one part (`Supply.Within`). Wherever its parts end, it comes
to the same text (`Supply.exists_read_plains`), as a CR LF that is cut makes two blanks instead of
one, and outside of preformatted text two blanks count as one.
-/

namespace BodyText

/-- The item of a character other than `<` and `&`. -/
def Item.plain (c : Char) : Item := if isBodyBlank c then .blank c else .char c

/-- A text without tags and references. -/
def IsPlain (cs : List Char) : Prop := '<' ∉ cs ∧ '&' ∉ cs

theorem IsPlain.of_cons {c : Char} {cs : List Char} (h : IsPlain (c :: cs)) :
    c ≠ '<' ∧ c ≠ '&' ∧ IsPlain cs := by
  obtain ⟨hlt, hamp⟩ := h
  rw [List.mem_cons, not_or] at hlt hamp
  exact ⟨Ne.symm hlt.1, Ne.symm hamp.1, hlt.2, hamp.2⟩

/-- What a plain text starts with. -/
theorem Head.of?_plain {c : Char} {cs : List Char} (hlt : c ≠ '<') (hamp : c ≠ '&')
    (h : c = '\r' → cs.head? ≠ some '\n') :
    Head.of? (c :: cs) = some (if isBodyBlank c then .blank c cs else .char c cs) := by
  rw [Head.of?_cons h, if_neg hlt, if_neg hamp]
  split <;> rfl

/-! ### Writing plain text -/

namespace Layout

theorem text_emit (l : Layout) (c : Char) : (l.emit c).text = l.text.push c := by
  unfold emit
  split <;> rfl

theorem text_foldl_emit (cs : List Char) (l : Layout) :
    (cs.foldl emit l).text = l.text ++ String.ofList cs := by
  induction cs generalizing l with
  | nil => simp
  | cons c cs ih =>
    rw [List.foldl_cons, ih, text_emit, String.push_eq_append, String.append_assoc]
    congr 1
    exact (String.ofList_cons ..).symm

theorem flush_of_not_spacePending {l : Layout} (h : l.spacePending = false) : l.flush = l := by
  rw [flush, h]
  rfl

@[simp] theorem preformatted_emit (l : Layout) (c : Char) :
    (l.emit c).preformatted = l.preformatted := by
  unfold emit
  split <;> rfl

@[simp] theorem preformatted_push (l : Layout) (c : Char) :
    (l.push c).preformatted = l.preformatted := by
  rw [push, preformatted_emit, flush]
  split
  · rw [preformatted_emit]
  · rfl

@[simp] theorem preformatted_blank (l : Layout) : l.blank.preformatted = l.preformatted := by
  unfold blank
  split <;> rfl

/-- Two blanks count as one. -/
@[simp] theorem blank_blank (l : Layout) : l.blank.blank = l.blank := by
  by_cases h : (!l.preformatted && !l.atLineStart) = true
  · rw [show l.blank = { l with spacePending := true } from if_pos h]
    exact if_pos h
  · rw [show l.blank = l from if_neg h]
    exact if_neg h

end Layout

namespace Writer

/-- Writes a plain text. -/
def writePlain (w : Writer) (cs : List Char) : Writer :=
  cs.foldl (fun w c => (w.write (.plain c)).2) w

theorem writePlain_append (w : Writer) (xs ys : List Char) :
    w.writePlain (xs ++ ys) = (w.writePlain xs).writePlain ys :=
  List.foldl_append

/-- A plain character is written without a chunk. -/
theorem write_plain (w : Writer) (c : Char) :
    w.write (.plain c) = (none, (w.write (.plain c)).2) := by
  unfold Item.plain
  split <;> rfl

theorem preformatted_write_plain {w : Writer} (h : w.layout.preformatted = false) (c : Char) :
    (w.write (.plain c)).2.layout.preformatted = false := by
  unfold Item.plain
  split
  · simp only [write, writeBlank, h, Bool.false_eq_true, if_false, Layout.preformatted_blank]
  · simp only [write, Layout.preformatted_push, h]

theorem write_blank {w : Writer} (h : w.layout.preformatted = false) (c : Char) :
    w.write (.blank c) = (none, { w with layout := w.layout.blank }) := by
  rw [write, writeBlank, h]
  rfl

/-- A CR and a LF that are two blanks come to what one blank comes to. -/
theorem writePlain_crlf {w : Writer} (h : w.layout.preformatted = false) :
    w.writePlain ['\r', '\n'] = { w with layout := w.layout.blank } := by
  have hcr : (w.write (.plain '\r')).2 = { w with layout := w.layout.blank } :=
    congrArg Prod.snd (write_blank h '\r')
  have hblank : ({ w with layout := w.layout.blank } : Writer).layout.preformatted = false := by
    rw [Layout.preformatted_blank, h]
  have hlf := congrArg Prod.snd (write_blank hblank '\n')
  rw [Layout.blank_blank] at hlf
  rw [writePlain, List.foldl_cons, hcr]
  exact hlf

theorem preformatted_writePlain {w : Writer} (h : w.layout.preformatted = false)
    (cs : List Char) : (w.writePlain cs).layout.preformatted = false := by
  induction cs generalizing w with
  | nil => exact h
  | cons c cs ih => exact ih (preformatted_write_plain h c)

@[simp] theorem latin1_writePlain (w : Writer) (cs : List Char) :
    (w.writePlain cs).latin1 = w.latin1 := by
  induction cs generalizing w with
  | nil => rfl
  | cons c cs ih =>
    have hwrite : (w.write (.plain c)).2.latin1 = w.latin1 := by
      unfold Item.plain
      split <;> rfl
    exact (ih _).trans hwrite

end Writer

/-! ### Reading plain text -/

namespace Supply

/-- Where there is some text, some of it comes to hand, with nothing read. -/
theorem exists_atHand {s s' : Supply} (h : s.Within s') (htext : s'.text ≠ []) :
    ∃ s'', s.Within s'' ∧ s''.text = s'.text ∧ s''.items = s'.items ∧ s''.atHand ≠ [] := by
  obtain ⟨cs, parts⟩ := s'
  induction parts generalizing cs with
  | nil =>
    refine ⟨_, h, rfl, rfl, fun hnil => htext ?_⟩
    rw [text, hnil]
    rfl
  | cons part parts ih =>
    by_cases hcs : cs = []
    · subst hcs
      obtain ⟨s'', hwithin, htext', hitems, hne⟩ := ih part (h.next rfl) htext
      exact ⟨s'', hwithin, htext', hitems.trans (items_cons part parts).symm, hne⟩
    · exact ⟨_, h, rfl, rfl, hcs⟩

/-- A whole line end that is at hand is one blank. -/
theorem items_of_crlf {s : Supply} {cs : List Char} (hatHand : s.atHand = '\r' :: '\n' :: cs) :
    s.items = .blank '\n' :: items ⟨cs, s.later⟩ := by
  have hof : Head.of? s.atHand = some (.blank '\n' cs) := by
    rw [hatHand]
    rfl
  rw [items_of_head hof, readItem]

/-- Any other character than `<` and `&` that is at hand is read as itself. -/
theorem items_of_plain {s : Supply} {c : Char} {cs : List Char} (hatHand : s.atHand = c :: cs)
    (hlt : c ≠ '<') (hamp : c ≠ '&') (hcr : c = '\r' → cs.head? ≠ some '\n') :
    s.items = .plain c :: items ⟨cs, s.later⟩ := by
  have hof : Head.of? s.atHand = some (if isBodyBlank c then .blank c cs else .char c cs) := by
    rw [hatHand, Head.of?_plain hlt hamp hcr]
  have hread : s.readItem (if isBodyBlank c then .blank c cs else .char c cs) =
      (.plain c, ⟨cs, s.later⟩) := by
    unfold Item.plain
    split <;> rfl
  rw [items_of_head hof, hread]

/-- Reading a character other than `<` and `&`: it is read as itself, or a CR with the LF behind it
as one blank. -/
theorem exists_read_char {s s' : Supply} {c : Char} {rest : List Char} (hwithin : s.Within s')
    (hlt : c ≠ '<') (hamp : c ≠ '&') (htext : s'.text = c :: rest) :
    ∃ s'' : Supply, s.Within s'' ∧
      (s'.items = .plain c :: s''.items ∧ s''.text = rest ∨
        c = '\r' ∧ rest = '\n' :: s''.text ∧ s'.items = .blank '\n' :: s''.items) := by
  obtain ⟨s₁, hwithin₁, htext₁, hitems₁, hne⟩ :=
    exists_atHand hwithin (by rw [htext]; exact List.cons_ne_nil _ _)
  obtain ⟨d, ds, hatHand⟩ := List.exists_cons_of_ne_nil hne
  have hboth : d :: (ds ++ s₁.later.flatten) = c :: rest := by
    rw [← List.cons_append, ← hatHand, ← htext, ← htext₁, text]
  obtain ⟨rfl, rfl⟩ := List.cons.inj hboth
  rw [← hitems₁]
  by_cases hcrlf : d = '\r' ∧ ds.head? = some '\n'
  · obtain ⟨rfl, hhead⟩ := hcrlf
    obtain ⟨es, rfl⟩ := List.head?_eq_some_iff.1 hhead
    exact ⟨⟨es, s₁.later⟩, hwithin₁.of_suffix (hatHand ▸ ⟨['\r', '\n'], rfl⟩),
      .inr ⟨rfl, rfl, items_of_crlf hatHand⟩⟩
  · exact ⟨⟨ds, s₁.later⟩, hwithin₁.of_suffix (hatHand ▸ ⟨[d], rfl⟩),
      .inl ⟨items_of_plain hatHand hlt hamp fun hc hn => hcrlf ⟨hc, hn⟩, rfl⟩⟩

/-- Reading one item of a plain text: a character of it, or a CR LF. -/
theorem exists_read_plain {s s' : Supply} {c : Char} {cs rest : List Char}
    (hwithin : s.Within s') (hplain : IsPlain (c :: cs)) (htext : s'.text = c :: cs ++ rest)
    (hend : (c :: cs).getLast? = some '\r' → rest.head? ≠ some '\n') :
    ∃ s'' used left, c :: cs = used ++ left ∧ used ≠ [] ∧ s.Within s'' ∧
      s''.text = left ++ rest ∧ ∀ w : Writer, w.layout.preformatted = false →
        w.compose s'.items = (w.writePlain used).compose s''.items := by
  obtain ⟨hlt, hamp, -⟩ := hplain.of_cons
  obtain ⟨s'', hwithin'', ⟨hitems, htext''⟩ | ⟨rfl, hcrlf, hitems⟩⟩ :=
    exists_read_char hwithin hlt hamp htext
  · refine ⟨s'', [c], cs, rfl, List.cons_ne_nil _ _, hwithin'', htext'', ?_⟩
    intro w hw
    rw [hitems, Writer.compose_of_none (w.write_plain c)]
    rfl
  · -- the LF of the line end is part of the plain text too
    cases cs with
    | nil =>
      have hrest : rest = '\n' :: s''.text := hcrlf
      exact absurd (by rw [hrest]; rfl) (hend rfl)
    | cons e cs =>
      obtain ⟨rfl, htext''⟩ := List.cons.inj hcrlf
      refine ⟨s'', ['\r', '\n'], cs, rfl, List.cons_ne_nil _ _, hwithin'', htext''.symm, ?_⟩
      intro w hw
      rw [hitems, Writer.writePlain_crlf hw, Writer.compose_of_none (Writer.write_blank hw '\n')]

/-- **Reading plain text** at the start of a supply comes to the text that it is, and leaves the
text behind it, unless that goes on with a line end that the plain text began. -/
theorem exists_read_plains {s s' : Supply} {plain rest : List Char} (hwithin : s.Within s')
    (hplain : IsPlain plain) (htext : s'.text = plain ++ rest)
    (hend : plain.getLast? = some '\r' → rest.head? ≠ some '\n') :
    ∃ s'', s.Within s'' ∧ s''.text = rest ∧ ∀ w : Writer, w.layout.preformatted = false →
      w.compose s'.items = (w.writePlain plain).compose s''.items := by
  induction hlen : plain.length using Nat.strongRecOn generalizing s' plain with
  | ind n ih =>
    cases plain with
    | nil => exact ⟨s', hwithin, htext, fun w _ => rfl⟩
    | cons c cs =>
      obtain ⟨s₁, used, left, hused, hne, hwithin₁, htext₁, hcompose₁⟩ :=
        exists_read_plain hwithin hplain htext hend
      rw [hused] at hplain hend hlen
      have hpos := List.length_pos_iff.2 hne
      rw [List.length_append] at hlen
      have hleft : IsPlain left :=
        ⟨fun h => hplain.1 (List.mem_append_right used h),
          fun h => hplain.2 (List.mem_append_right used h)⟩
      have hend' : left.getLast? = some '\r' → rest.head? ≠ some '\n' := fun hlast =>
        hend (by rw [List.getLast?_append, hlast, Option.some_or])
      obtain ⟨s'', hwithin'', htext'', hcompose⟩ :=
        ih left.length (by omega) hwithin₁ hleft htext₁ hend' rfl
      refine ⟨s'', hwithin'', htext'', ?_⟩
      intro w hw
      rw [hcompose₁ w hw, hcompose _ (Writer.preformatted_writePlain hw used), hused,
        Writer.writePlain_append]

end Supply

end BodyText
