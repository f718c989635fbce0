import BodyText.Proofs.OneShot
import BodyText.Proofs.PlainText
import BodyText.Proofs.ValidText

/-!
# Skipped blocks

What a style sheet, a script or a comment holds should not be seen in the text, wherever the limit
cuts the lines of the body. It is not seen as long as the limit does not cut the opening of the
block, which has to be at hand as a whole to be told (`Block.CutsOpening`). When the limit does cut
it, the block is taken for a tag, and what stands behind the first `>` in it is text.
-/

namespace BodyText

/-! ### Where the limit cuts -/

/-- The limit cuts the text `xs ++ ys` between the two. -/
def Cut (limit : Nat) (xs ys : List Char) : Prop :=
  ∃ first later, pieces limit (xs ++ ys) = first ++ later ∧ first.flatten = xs

/-- Whether a piece ends where a text goes on does not depend on more than the next character. -/
theorem textHead_append_cons {room : Nat} {xs ys ys' : List Char} {y : Char}
    (h : (textHead room (xs ++ y :: ys)).length ≤ xs.length) :
    textHead room (xs ++ y :: ys') = textHead room (xs ++ y :: ys) := by
  induction xs generalizing room with
  | nil =>
    rw [List.nil_append, textHead] at h
    rw [List.nil_append, List.nil_append, textHead, textHead]
    split at h
    · rename_i hroom
      rw [if_pos hroom, if_pos hroom]
    · split at h
      · exact absurd h (by simp)
      · exact absurd h (by simp)
  | cons x xs ih =>
    rw [List.cons_append, List.cons_append, textHead, textHead]
    split
    · rfl
    · split
      · rfl
      · rename_i hroom hx
        rw [List.cons_append, textHead, if_neg hroom, if_neg hx] at h
        rw [ih (Nat.le_of_succ_le_succ h)]

/-- Whether the limit cuts a text at a place does not depend on more than the next character. -/
theorem Cut.congr {limit : Nat} (hlimit : 4 ≤ limit) {xs ys : List Char} {y : Char}
    (h : Cut limit xs (y :: ys)) (ys' : List Char) : Cut limit xs (y :: ys') := by
  induction hlen : xs.length using Nat.strongRecOn generalizing xs with
  | ind n ih =>
    by_cases hxs : xs = []
    · exact ⟨[], _, rfl, hxs.symm⟩
    · have hne : ∀ zs, xs ++ y :: zs ≠ [] := fun zs => List.append_ne_nil_of_left_ne_nil hxs _
      obtain ⟨first, later, hpieces, hfirst⟩ := h
      rw [pieces_eq_cons hlimit (hne ys)] at hpieces
      cases first with
      | nil => exact absurd hfirst.symm hxs
      | cons piece first =>
        obtain ⟨hpiece, hpieces⟩ := List.cons.inj hpieces
        rw [List.flatten_cons] at hfirst
        have hpos := List.length_pos_iff.2 (textHead_ne_nil hlimit (hne ys))
        have hsize := congrArg List.length hfirst
        rw [List.length_append] at hsize
        rw [hpiece] at hpos
        have hsame : textHead limit (xs ++ y :: ys') = piece := by
          rw [← hpiece]
          exact textHead_append_cons (by rw [hpiece]; omega)
        have hdrop : ∀ zs, (xs ++ y :: zs).drop piece.length = first.flatten ++ y :: zs := by
          intro zs
          rw [← hfirst, List.append_assoc, List.drop_left]
        rw [hpiece, hdrop] at hpieces
        obtain ⟨first', later', hpieces', hfirst'⟩ :=
          ih first.flatten.length (by omega) ⟨first, later, hpieces, rfl⟩ rfl
        refine ⟨piece :: first', later', ?_, by rw [List.flatten_cons, hfirst', hfirst]⟩
        rw [pieces_eq_cons hlimit (hne ys'), hsame, hdrop, hpieces']
        rfl

/-! ### Blocks in a text -/

namespace Block

theorem lower_opening (b : Block) : lower b.opening = b.opening := by
  cases b <;> decide

theorem lower_closing (b : Block) : lower b.closing = b.closing := by
  cases b <;> decide

theorem opening_eq_cons (b : Block) : b.opening = '<' :: b.opening.tail := by
  cases b <;> rfl

theorem opening_append_ne_nil (b : Block) (rest : List Char) : b.opening ++ rest ≠ [] := by
  cases b <;> exact List.cons_ne_nil _ _

theorem head?_opening_append_ne (b : Block) (rest : List Char) :
    (b.opening ++ rest).head? ≠ some '\n' := by
  have hhead : (b.opening ++ rest).head? = some '<' := by
    cases b <;> rfl
  rw [hhead]
  decide

theorem opened?_opening (b : Block) (rest : List Char) :
    opened? (b.opening ++ rest) = some (b, rest) :=
  opened?_eq_some_iff.2 (after?_eq_some_iff.2 ⟨b.opening, rfl, b.lower_opening⟩)

/-- A block is told by its opening. -/
theorem head_opening (b : Block) (rest : List Char) :
    Head.of? (b.opening ++ rest) = some (.block b rest) := by
  have hopened := b.opened?_opening rest
  rw [opening_eq_cons, List.cons_append] at hopened ⊢
  rw [Head.of?_cons (by simp), if_pos rfl, hopened]

/-- No closing starts inside another one: its `>` is its end. -/
theorem not_mem_dropLast_closing (b : Block) : '>' ∉ b.closing.dropLast := by
  cases b <;> decide

theorem getLast?_closing (b : Block) : b.closing.getLast? = some '>' := by
  cases b <;> rfl

/-- A closing that starts in a text that does not hold one ends in it. -/
theorem after?_closing_eq_none (b : Block) {content : List Char} (hne : content ≠ [])
    (h : ¬ b.closing <:+: lower content) (rest : List Char) :
    after? b.closing (content ++ (b.closing ++ rest)) = none := by
  rw [Option.eq_none_iff_forall_ne_some]
  intro after hafter
  obtain ⟨head, htext, hhead⟩ := after?_eq_some_iff.1 hafter
  rcases List.append_eq_append_iff.1 htext with ⟨ts, rfl, hclosing⟩ | ⟨ts, rfl, -⟩
  · -- the closing ends with a start of the one behind the text, and so with a `>` inside that
    rw [lower_append] at hhead
    by_cases hts : ts = []
    · rw [hts, show lower [] = [] from rfl, List.append_nil] at hhead
      exact h (hhead ▸ List.infix_rfl)
    · have hlen := congrArg List.length hhead
      rw [List.length_append, length_lower, length_lower] at hlen
      have hpos := List.length_pos_iff.2 hne
      rcases List.append_eq_append_iff.1 hclosing with ⟨us, hus, -⟩ | ⟨us, hus, -⟩
      · have husl := congrArg List.length hus
        rw [List.length_append] at husl
        omega
      · have husne : us ≠ [] := by
          rintro rfl
          rw [List.append_nil] at hus
          rw [hus] at hlen
          omega
        have hlower : lower ts ++ lower us = ts ++ us := by
          rw [← lower_append, ← hus, lower_closing]
        obtain ⟨hlower, -⟩ := List.append_inj hlower (length_lower ts)
        have hlast : ts.getLast? = some '>' := by
          have hgt := b.getLast?_closing
          rw [← hhead, hlower, List.getLast?_append, List.getLast?_eq_some_getLast hts,
            Option.some_or, ← List.getLast?_eq_some_getLast hts] at hgt
          exact hgt
        apply b.not_mem_dropLast_closing
        rw [hus, List.dropLast_append_of_ne_nil husne]
        exact List.mem_append_left _ (List.mem_of_getLast? hlast)
  · rw [lower_append, hhead] at h
    exact h (List.prefix_append _ _).isInfix

/-- What does not hold the closing of a block is closed by the closing behind it. -/
theorem closed?_append (b : Block) {content : List Char}
    (h : ¬ b.closing <:+: lower content) (rest : List Char) :
    b.closed? (content ++ (b.closing ++ rest)) = some rest := by
  induction content with
  | nil => exact past?_of_after? (after?_eq_some_iff.2 ⟨b.closing, rfl, b.lower_closing⟩)
  | cons c content ih =>
    have hnone := b.after?_closing_eq_none (List.cons_ne_nil c content) h rest
    have hcontent : ¬ b.closing <:+: lower content := fun hfound =>
      h (hfound.trans (List.suffix_cons c.toLower (lower content)).isInfix)
    rw [closed?, List.cons_append, past?, ← List.cons_append, hnone]
    exact ih hcontent

end Block

/-! ### Conversions of a text -/

/-- The plain text of a text in UTF-8. -/
def plainTextOf (config : Config) (text : List Char) : Except ReadError String :=
  plainText [.segment (Utf8.encode text)] .utf8 config

/-- What a text in UTF-8 becomes is what the items of its pieces are written as. -/
theorem plainTextOf_eq {config : Config} (hlimit : 4 ≤ config.lineLimit) (text : List Char) :
    plainTextOf config text =
      .ok (Passage.joined
        (config.writer.compose (Supply.items ⟨[], pieces config.lineLimit text⟩))) :=
  plainText_encode (Stream.steady_segment (Utf8.encode text)).unbroken (List.append_nil _) hlimit

/-- A character is written behind the pending space. -/
theorem Layout.text_push {l : Layout} {c : Char} (h : c ≠ '\n') :
    (l.push c).text = l.flush.text.push c := by
  rw [push, emit, if_neg h]

/-- What is written already comes first in the text. -/
theorem Writer.exists_joined_compose (w : Writer) (items : List Item) :
    ∃ more, Passage.joined (w.compose items) = w.layout.text ++ more := by
  have hahead : Ahead w.layout.text w w.renew := ahead_renew
  rw [compose_of_ahead hahead, Passage.joined_prepend]
  exact ⟨_, rfl⟩

/-! ### Blocks that are told -/

/-- The limit cuts the opening of a block that stands behind the text `plain`. -/
def Block.CutsOpening (b : Block) (limit : Nat) (plain : List Char) : Prop :=
  ∃ begin rest, b.opening = begin ++ rest ∧ begin ≠ [] ∧ rest ≠ [] ∧
    Cut limit (plain ++ begin) rest

section

variable {limit : Nat} {plain rest : List Char} {b : Block}

/-- An opening that the limit does not cut is at hand as a whole. -/
theorem exists_atHand_of_not_cuts (hlimit : 4 ≤ limit) (hcuts : ¬ b.CutsOpening limit plain)
    {s : Supply} (hwithin : Supply.Within ⟨[], pieces limit (plain ++ (b.opening ++ rest))⟩ s)
    (htext : s.text = b.opening ++ rest) (hne : s.atHand ≠ []) :
    ∃ more, s.atHand = b.opening ++ more := by
  rcases List.append_eq_append_iff.1 htext with ⟨ts, hopening, hlater⟩ | ⟨ts, hatHand, -⟩
  · by_cases hts : ts = []
    · exact ⟨[], by rw [hopening, hts, List.append_nil, List.append_nil]⟩
    · -- what is at hand ends inside the opening
      obtain ⟨taken, hpieces, htaken⟩ := hwithin.leaves.exists_taken
        ((flatten_pieces hlimit _).trans (congrArg (plain ++ ·) htext.symm))
      obtain ⟨t, ts, rfl⟩ := List.exists_cons_of_ne_nil hts
      have hcut : Cut limit (plain ++ s.atHand) (t :: (ts ++ rest)) := by
        refine ⟨taken, s.later, ?_, htaken⟩
        rw [← hpieces, hopening]
        simp only [List.append_assoc, List.cons_append]
      exact absurd ⟨s.atHand, t :: ts, hopening, hne, hts, hcut.congr hlimit ts⟩ hcuts
  · exact ⟨ts, hatHand⟩

/-- Reading a block whose opening the limit does not cut skips it, with all that it holds. -/
theorem exists_skip (hlimit : 4 ≤ limit) (hcuts : ¬ b.CutsOpening limit plain)
    {content : List Char} (hcontent : ¬ b.closing <:+: lower content) {s : Supply}
    (hwithin : Supply.Within
      ⟨[], pieces limit (plain ++ (b.opening ++ (content ++ (b.closing ++ rest))))⟩ s)
    (htext : s.text = b.opening ++ (content ++ (b.closing ++ rest))) :
    ∃ s', s.items = .skipped :: s'.items ∧ s'.text = rest ∧ s'.Lined false ∧
      Supply.Leaves
        ⟨[], pieces limit (plain ++ (b.opening ++ (content ++ (b.closing ++ rest))))⟩ s' := by
  obtain ⟨s₁, hwithin₁, htext₁, hitems₁, hne⟩ :=
    Supply.exists_atHand hwithin (htext ▸ b.opening_append_ne_nil _)
  rw [htext] at htext₁
  obtain ⟨more, hatHand⟩ := exists_atHand_of_not_cuts hlimit hcuts hwithin₁ htext₁ hne
  have hmore : more ++ s₁.later.flatten = content ++ (b.closing ++ rest) := by
    have hboth : b.opening ++ (more ++ s₁.later.flatten) =
        b.opening ++ (content ++ (b.closing ++ rest)) := by
      rw [← htext₁, Supply.text, hatHand, List.append_assoc]
    exact List.append_cancel_left hboth
  have hhead : Head.of? s₁.atHand = some (.block b more) := hatHand ▸ b.head_opening more
  have hread := Supply.agrees_readItem (hwithin₁.lined (lined_pieces hlimit _)) hhead
  refine ⟨_, ?_, ?_, hread.lined, hwithin₁.leaves.trans (Supply.leaves_of_head hhead)⟩
  · rw [← hitems₁, Supply.items_of_head hhead]
    rfl
  · rw [hread.text, Head.extend, hmore, scanItem, b.closed?_append hcontent, Option.getD_some]

/-- The next item reads as if the block were not there. -/
theorem Writer.compose_skipped (w : Writer) (items : List Item) :
    w.compose (.skipped :: items) = w.compose items := by
  have hahead : Ahead "" w.noteMarkup w := .of_same rfl rfl rfl rfl
  rw [compose_of_none (rfl : w.write .skipped = (none, w.noteMarkup)), compose_of_ahead hahead,
    Passage.prepend_empty]

/-- A text that starts with a plain text and a block whose opening the limit does not cut is written
as the plain text and what follows the block. -/
theorem compose_skip (hlimit : 4 ≤ limit) (hplain : IsPlain plain)
    (hcuts : ¬ b.CutsOpening limit plain) {content : List Char}
    (hcontent : ¬ b.closing <:+: lower content)
    (hmarks : KeepsMarks (plain ++ (b.opening ++ (content ++ b.closing)))
      (pieces limit (plain ++ (b.opening ++ (content ++ b.closing)) ++ rest)))
    {w : Writer} (hw : w.layout.preformatted = false) :
    w.compose (Supply.items
        ⟨[], pieces limit (plain ++ (b.opening ++ (content ++ b.closing)) ++ rest)⟩) =
      (w.writePlain plain).compose (itemsOf false rest) := by
  have htext : plain ++ (b.opening ++ (content ++ b.closing)) ++ rest =
      plain ++ (b.opening ++ (content ++ (b.closing ++ rest))) := by
    simp only [List.append_assoc]
  rw [htext] at hmarks ⊢
  obtain ⟨s, hwithin, hs, hcompose⟩ := Supply.exists_read_plains (.refl _) hplain
    (text_pieces hlimit _) fun _ => b.head?_opening_append_ne (content ++ (b.closing ++ rest))
  obtain ⟨s', hitems, hs', hlined, hleaves⟩ := exists_skip hlimit hcuts hcontent hwithin hs
  have hintact : s'.Intact := hmarks.intact hleaves (by rw [flatten_pieces hlimit, ← htext, hs'])
  rw [hcompose w hw, hitems, Writer.compose_skipped, Supply.items_eq_itemsOf hlined hintact, hs']

/-- A text that starts with a plain text is written as the plain text and what follows it. -/
theorem compose_plain (hlimit : 4 ≤ limit) (hplain : IsPlain plain)
    (hmarks : KeepsMarks plain (pieces limit (plain ++ rest)))
    {w : Writer} (hw : w.layout.preformatted = false) :
    w.compose (Supply.items ⟨[], pieces limit (plain ++ rest)⟩) =
      (w.writePlain plain).compose (itemsOf false rest) := by
  by_cases hcrlf : plain.getLast? = some '\r' ∧ rest.head? = some '\n'
  · -- the line end that the plain text begins is read with it
    obtain ⟨hlast, hhead⟩ := hcrlf
    obtain ⟨rest, rfl⟩ := List.head?_eq_some_iff.1 hhead
    have hplain' : IsPlain (plain ++ ['\n']) := by simpa [IsPlain] using hplain
    have hflat : Supply.text ⟨[], pieces limit (plain ++ '\n' :: rest)⟩ =
        plain ++ ['\n'] ++ rest := by
      rw [text_pieces hlimit, List.append_assoc]
      rfl
    obtain ⟨s, hwithin, hs, hcompose⟩ :=
      Supply.exists_read_plains (.refl _) hplain' hflat (fun h => by simp at h)
    have hintact : s.Intact := (hmarks.append ['\n']).intact hwithin.leaves
      (by rw [flatten_pieces hlimit, hs, List.append_assoc]; rfl)
    have hhead : Head.of? ('\n' :: rest) = some (.blank '\n' rest) := rfl
    have hblank : itemsOf false ('\n' :: rest) = .blank '\n' :: itemsOf false rest :=
      itemsOf_of_head hhead
    rw [hcompose w hw, Supply.items_eq_itemsOf (hwithin.lined (lined_pieces hlimit _)) hintact, hs,
      hblank, Writer.writePlain_append]
    exact (Writer.compose_of_none ((w.writePlain plain).write_plain '\n') _).symm
  · obtain ⟨s, hwithin, hs, hcompose⟩ := Supply.exists_read_plains (.refl _) hplain
      (text_pieces hlimit (plain ++ rest)) fun hlast hhead => hcrlf ⟨hlast, hhead⟩
    have hintact : s.Intact :=
      hmarks.intact hwithin.leaves (by rw [flatten_pieces hlimit, hs])
    rw [hcompose w hw, Supply.items_eq_itemsOf (hwithin.lined (lined_pieces hlimit _)) hintact, hs]

end

/-! ### Blocks that are cut -/

/-- A text that is only the start of an opening opens no block. -/
theorem Block.opened?_eq_none (b : Block) {begin rest : List Char}
    (hopening : b.opening = begin ++ rest) (hrest : rest ≠ []) : opened? begin = none := by
  rw [Option.eq_none_iff_forall_ne_some]
  rintro ⟨b', after⟩ hopened
  have hwhole := opened?_append_of_some hopened rest
  rw [← hopening, ← List.append_nil b.opening, b.opened?_opening] at hwhole
  obtain ⟨-, hafter⟩ := Prod.mk.inj (Option.some.inj hwhole)
  exact hrest (List.append_eq_nil_iff.1 hafter.symm).2

/-- No block's opening is taken for a tag that does something. -/
theorem Block.write_opening (b : Block) (w : Writer) :
    w.write (.tag b.opening.tail) = (none, w.noteMarkup) := by
  cases b with
  | comment => rfl
  | style =>
    have hread : Tag.read (opening .style).tail = .complete ⟨"style", []⟩ := by cbv
    rw [Writer.write, hread]
    rfl
  | script =>
    have hread : Tag.read (opening .script).tail = .complete ⟨"script", []⟩ := by cbv
    rw [Writer.write, hread]
    rfl

section

variable {limit : Nat} {plain more : List Char} {b : Block}

/-- Of an opening that the limit cuts, only the start is at hand. -/
theorem exists_atHand_of_cuts (hlimit : 4 ≤ limit) (hcuts : b.CutsOpening limit plain)
    {s : Supply} (hwithin : Supply.Within ⟨[], pieces limit (plain ++ (b.opening ++ more))⟩ s)
    (htext : s.text = b.opening ++ more) :
    ∃ missing, b.opening = s.atHand ++ missing ∧ missing ≠ [] := by
  obtain ⟨begin, rest, hopening, hbegin, hrest, hcut⟩ := hcuts
  obtain ⟨r, rest, rfl⟩ := List.exists_cons_of_ne_nil hrest
  obtain ⟨first, later, hpieces, hfirst⟩ := hcut.congr hlimit (rest ++ more)
  have hwhole : plain ++ (b.opening ++ more) = plain ++ begin ++ (r :: (rest ++ more)) := by
    rw [hopening]
    simp only [List.append_assoc, List.cons_append]
  have hlater : later.flatten = r :: (rest ++ more) := by
    have hflat := flatten_pieces hlimit (plain ++ begin ++ (r :: (rest ++ more)))
    rw [hpieces, List.flatten_append, hfirst] at hflat
    exact List.append_cancel_left hflat
  obtain ⟨taken, part, hparts, hsuffix⟩ := hwithin
  rw [hwhole, hpieces] at hparts
  rw [hopening, List.append_assoc, List.cons_append, Supply.text] at htext
  -- the part at hand is one of those before the cut, as the text that is left starts before it
  have hbefore : ∀ skipped, later ≠ skipped ++ part :: s.later := by
    rintro skipped rfl
    have hsize := congrArg List.length (htext.trans (congrArg (begin ++ ·) hlater.symm))
    simp only [List.length_append, List.flatten_append, List.flatten_cons] at hsize
    have hpos := List.length_pos_iff.2 hbegin
    have hle := hsuffix.length_le
    omega
  rcases List.append_eq_append_iff.1 (show ([] :: first) ++ later = _ from hparts) with
    ⟨skipped, -, hskipped⟩ | ⟨left, -, hleft⟩
  · exact absurd hskipped (hbefore skipped)
  · cases left with
    | nil => exact absurd hleft.symm (hbefore [])
    | cons last left =>
      have hleft : s.later = left ++ later := (List.cons.inj hleft).2
      rw [hleft, List.flatten_append, ← List.append_assoc, hlater] at htext
      refine ⟨left.flatten ++ r :: rest, ?_, List.append_ne_nil_of_right_ne_nil _ hrest⟩
      rw [hopening, ← List.append_assoc, List.append_cancel_right htext]

/-- A block whose opening the limit cuts is read as a tag up to the first `>` in it. -/
theorem exists_read_opening (hlimit : 4 ≤ limit) (hcuts : b.CutsOpening limit plain) {s : Supply}
    (hwithin : Supply.Within ⟨[], pieces limit (plain ++ (b.opening ++ '>' :: more))⟩ s)
    (htext : s.text = b.opening ++ '>' :: more) :
    ∃ s' : Supply, s.items = .tag b.opening.tail :: s'.items ∧ s'.text = more := by
  obtain ⟨s₁, hwithin₁, htext₁, hitems₁, hne⟩ :=
    Supply.exists_atHand hwithin (htext ▸ b.opening_append_ne_nil _)
  rw [htext] at htext₁
  obtain ⟨missing, hopening, hmissing⟩ := exists_atHand_of_cuts hlimit hcuts hwithin₁ htext₁
  have hnone := b.opened?_eq_none hopening hmissing
  have hclosed : '>' ∉ b.opening.tail := by cases b <;> decide
  rw [b.opening_eq_cons] at htext₁
  obtain ⟨s', hitems, hs', -⟩ :=
    Supply.exists_read_tag (hwithin₁.lined (lined_pieces hlimit _)) hne htext₁ hnone hclosed
  exact ⟨s', hitems₁.symm.trans hitems, hs'⟩

/-- What stands behind the first `>` of a block whose opening the limit cuts is seen. -/
theorem exists_plainTextOf_leak {config : Config} (more : List Char) (hlimit : 4 ≤ config.lineLimit)
    (hplain : IsPlain plain) (hcuts : b.CutsOpening config.lineLimit plain) {c : Char}
    (hc : IsPlain [c]) (hblank : isBodyBlank c = false) :
    ∃ after, plainTextOf config (plain ++ (b.opening ++ '>' :: c :: more)) =
      .ok (((config.writer.writePlain plain).layout.push c).text ++ after) := by
  obtain ⟨s, hwithin, hs, hcompose⟩ := Supply.exists_read_plains (.refl _) hplain
    (text_pieces hlimit _) fun _ => b.head?_opening_append_ne ('>' :: c :: more)
  obtain ⟨s₁, hitems₁, hs₁⟩ := exists_read_opening hlimit hcuts hwithin hs
  have hcr : [c].getLast? = some '\r' → more.head? ≠ some '\n' := by
    intro hlast
    cases hlast
    cases hblank
  obtain ⟨s₂, -, -, hcompose₂⟩ := Supply.exists_read_plains (.refl s₁) hc hs₁ hcr
  have hpre := Writer.preformatted_writePlain (w := config.writer) rfl plain
  obtain ⟨after, hafter⟩ :=
    ((config.writer.writePlain plain).noteMarkup.writePlain [c]).exists_joined_compose s₂.items
  have hwrite : (config.writer.writePlain plain).noteMarkup.writePlain [c] =
      { (config.writer.writePlain plain).noteMarkup with
        layout := (config.writer.writePlain plain).layout.push c } := by
    rw [Writer.writePlain, List.foldl_cons, List.foldl_nil, Item.plain, hblank]
    rfl
  refine ⟨after, ?_⟩
  rw [plainTextOf_eq hlimit, hcompose _ rfl, hitems₁,
    Writer.compose_of_none (b.write_opening _),
    hcompose₂ (config.writer.writePlain plain).noteMarkup hpre, hafter, hwrite]

end

/-! ### Which blocks are hidden -/

namespace Block

/-- What may stand before a text when a block makes no difference to it: a plain text, alone or with
a block behind it. -/
inductive Leads (b : Block) (plain : List Char) : List Char → Prop
  /-- The plain text alone. -/
  | alone : Leads b plain plain
  /-- The plain text and a block. What the block holds does not close it. -/
  | holding {content : List Char} : ¬ b.closing <:+: lower content →
      Leads b plain (plain ++ (b.opening ++ (content ++ b.closing)))

theorem Leads.compose {b : Block} {limit : Nat} {plain before rest : List Char}
    (h : b.Leads plain before) (hlimit : 4 ≤ limit) (hplain : IsPlain plain)
    (hcuts : ¬ b.CutsOpening limit plain)
    (hmarks : KeepsMarks before (pieces limit (before ++ rest))) {w : Writer}
    (hw : w.layout.preformatted = false) :
    w.compose (Supply.items ⟨[], pieces limit (before ++ rest)⟩) =
      (w.writePlain plain).compose (itemsOf false rest) := by
  cases h with
  | alone => exact compose_plain hlimit hplain hmarks hw
  | holding hcontent => exact compose_skip hlimit hplain hcuts hcontent hmarks hw

/-- The contents `>` and one more character close no block. -/
theorem leads_short (b : Block) (plain : List Char) (c : Char) :
    b.Leads plain (plain ++ (b.opening ++ (['>', c] ++ b.closing))) := by
  apply Leads.holding
  intro hfound
  have hlen := hfound.length_le
  rw [length_lower] at hlen
  have hpos : 2 < b.closing.length := by cases b <;> decide
  exact absurd hlen (Nat.not_le.2 hpos)

/-- **A block is hidden exactly when the limit does not cut its opening.** The text behind a plain
text then reads the same whether there is a block before it or not, whatever the block holds and
wherever else the limit cuts it, as long as the limit cuts no mark of the text behind it. When the
limit does cut the opening, what the block holds is seen. -/
theorem plainTextOf_eq_iff_not_cutsOpening (b : Block) {config : Config} {plain : List Char}
    (hlimit : 4 ≤ config.lineLimit) (hplain : IsPlain plain) :
    (∀ before before' rest, b.Leads plain before → b.Leads plain before' →
        KeepsMarks before (pieces config.lineLimit (before ++ rest)) →
        KeepsMarks before' (pieces config.lineLimit (before' ++ rest)) →
        plainTextOf config (before ++ rest) = plainTextOf config (before' ++ rest)) ↔
      ¬ b.CutsOpening config.lineLimit plain := by
  constructor
  · intro hsame hcuts
    have hend : ∀ before, KeepsMarks before (pieces config.lineLimit (before ++ [])) :=
      fun before => keepsMarks_of_unmarked (flatten_pieces hlimit _) List.not_mem_nil
        fun b' hfound => by cases b' <;> exact absurd (List.infix_nil.1 hfound) nofun
    -- two contents of the same block that differ in the first character that is seen
    have hsame := hsame _ _ [] (b.leads_short plain 'x') (b.leads_short plain 'y') (hend _) (hend _)
    rw [List.append_nil, List.append_nil] at hsame
    obtain ⟨after, hx⟩ := exists_plainTextOf_leak b.closing hlimit hplain hcuts
      (c := 'x') (by simp [IsPlain]) rfl
    obtain ⟨after', hy⟩ := exists_plainTextOf_leak b.closing hlimit hplain hcuts
      (c := 'y') (by simp [IsPlain]) rfl
    have hseen := Except.ok.inj (hx.symm.trans (hsame.trans hy))
    rw [Layout.text_push (by decide), Layout.text_push (by decide)] at hseen
    have hchars := congrArg String.toList hseen
    simp only [String.toList_append, String.toList_push, List.append_assoc] at hchars
    exact absurd (List.append_cancel_left hchars) (by simp)
  · intro hcuts before before' rest hbefore hbefore' hmarks hmarks'
    rw [plainTextOf_eq hlimit, plainTextOf_eq hlimit,
      hbefore.compose hlimit hplain hcuts hmarks rfl,
      hbefore'.compose hlimit hplain hcuts hmarks' rfl]

/-- A limit of eight bytes cuts the closing of a comment, and the comment is hidden. -/
theorem plainTextOf_of_closing_cut :
    (4 ≤ 8 ∧ IsPlain ['a']) ∧
      plainTextOf { lineLimit := 8 }
          (['a'] ++ (comment.opening ++ (['b'] ++ comment.closing)) ++ ['c']) =
        .ok "ac" := by
  have hplain : IsPlain ['a'] := by simp [IsPlain]
  have hcuts : ¬ comment.CutsOpening 8 ['a'] := by
    rintro ⟨begin, rest, hopening, -, hrest, first, later, hpieces, hfirst⟩
    have hone : pieces 8 (['a'] ++ begin ++ rest) = [['a'] ++ comment.opening] := by
      rw [List.append_assoc, ← hopening]
      cbv
    rcases List.append_eq_singleton_iff.1 (hpieces.symm.trans hone) with
      ⟨rfl, -⟩ | ⟨rfl, -⟩
    · cases hfirst
    · rw [List.flatten_singleton, hopening, ← List.append_assoc] at hfirst
      exact hrest (List.append_right_eq_self.1 hfirst)
  have hblocks : ∀ b : Block, ¬ b.opening <:+: lower ['c'] := by
    intro b hfound
    have hlen := hfound.length_le
    cases b <;> exact absurd hlen (by decide)
  have hmarks : ∀ before, KeepsMarks before (pieces 8 (before ++ ['c'])) := fun before =>
    keepsMarks_of_unmarked (flatten_pieces (by decide) _) (by simp) hblocks
  have hlimit : 4 ≤ ({ lineLimit := 8 } : Config).lineLimit := by decide
  have hcontent : ¬ comment.closing <:+: lower ['b'] := by decide
  have hsame := (comment.plainTextOf_eq_iff_not_cutsOpening hlimit hplain).2 hcuts
    _ _ ['c'] (.holding hcontent) .alone (hmarks _) (hmarks _)
  exact ⟨⟨by decide, hplain⟩, hsame.trans (by cbv)⟩

/-- A limit of four bytes cuts the opening of a comment, and what the comment holds is seen. -/
theorem plainTextOf_of_opening_cut :
    plainTextOf { lineLimit := 4 }
        (['a', 'b'] ++ (comment.opening ++ ([' ', '>', ' '] ++ comment.closing)) ++ ['d']) =
      .ok "ab -->d" ∧
    plainTextOf { lineLimit := 4 } (['a', 'b'] ++ ['d']) ≠ .ok "ab -->d" := by
  have hhidden : plainTextOf { lineLimit := 4 } (['a', 'b'] ++ ['d']) = .ok "abd" := by cbv
  constructor
  · cbv
  · rw [hhidden]
    intro hshown
    exact absurd (Except.ok.inj hshown) (by decide)

end Block

end BodyText
