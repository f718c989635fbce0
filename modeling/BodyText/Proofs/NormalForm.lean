import BodyText.Proofs.Flags
import BodyText.Proofs.OneShot

/-!
# The form of the text

Outside of preformatted text, and as long as no reference brings in a character of its own, the
text of a conversion is in normal form: it has no blank but single spaces between two characters of
one line (`Tidy`), and no more than one blank line in a row (`Spread`), unless the body breaks lines
itself. A pending space goes out only before the character that ends the waiting, so the text is
tidy at every moment; and of all that is written, only the tag that breaks a line writes a line end
without a look at the flags.

`Layout.Neat` is what holds of a layout between any two items, with the text that was handed out
before. One item keeps it so (`Writer.Neat.write`), and so do all items of a conversion
(`Writer.Neat.compose`).
-/

namespace BodyText

/-! ### Texts in normal form -/

/-- A character that may stand beside a space. -/
def IsInk (c : Char) : Prop := c ≠ ' ' ∧ c ≠ '\n'

/-- A text whose only blanks, but for line ends, are single spaces within a line. -/
structure Tidy (cs : List Char) : Prop where
  /-- There is no TAB. -/
  no_tab : '\t' ∉ cs
  /-- There is no CR. -/
  no_cr : '\r' ∉ cs
  /-- A space stands between two characters that are neither spaces nor line ends. -/
  spaces : ∀ xs ys, cs = xs ++ ' ' :: ys →
    (∃ c, xs.getLast? = some c ∧ IsInk c) ∧ ∃ c, ys.head? = some c ∧ IsInk c

/-- A text that has no two blank lines in a row, and no blank line at its start. -/
def Spread (cs : List Char) : Prop := ¬ ['\n', '\n', '\n'] <:+: belowBlankLine cs

theorem ne_of_not_isBodyBlank {c : Char} (h : isBodyBlank c = false) :
    c ≠ ' ' ∧ c ≠ '\t' ∧ c ≠ '\r' ∧ c ≠ '\n' := by
  simpa [isBodyBlank, and_assoc] using h

theorem isInk_of_not_isBodyBlank {c : Char} (h : isBodyBlank c = false) : IsInk c :=
  ⟨(ne_of_not_isBodyBlank h).1, (ne_of_not_isBodyBlank h).2.2.2⟩

/-- Where a text with one character behind it is parted: behind all of it, or within. -/
theorem concat_eq_append_cons {cs xs ys : List Char} {c d : Char}
    (h : cs ++ [c] = xs ++ d :: ys) :
    ys = [] ∧ cs = xs ∧ c = d ∨ ∃ zs, ys = zs ++ [c] ∧ cs = xs ++ d :: zs := by
  rcases List.eq_nil_or_concat ys with rfl | ⟨zs, e, rfl⟩
  · exact .inl ⟨rfl, List.append_singleton_inj.1 h⟩
  · rw [List.concat_eq_append, ← List.cons_append, ← List.append_assoc] at h
    obtain ⟨hcs, rfl⟩ := List.append_singleton_inj.1 h
    exact .inr ⟨zs, List.concat_eq_append, hcs⟩

theorem tidy_nil : Tidy [] where
  no_tab := List.not_mem_nil
  no_cr := List.not_mem_nil
  spaces xs ys h := by simp at h

theorem Tidy.getLast?_ne {cs : List Char} (h : Tidy cs) : cs.getLast? ≠ some ' ' := by
  intro hlast
  obtain ⟨xs, rfl⟩ := List.getLast?_eq_some_iff.1 hlast
  obtain ⟨-, c, hc, -⟩ := h.spaces xs [] rfl
  cases hc

/-- A tidy text stays so with a character behind it that is no blank, or a line end. -/
theorem Tidy.concat {cs : List Char} (h : Tidy cs) {c : Char}
    (hc : isBodyBlank c = false ∨ c = '\n') : Tidy (cs ++ [c]) := by
  have hne : c ≠ ' ' ∧ c ≠ '\t' ∧ c ≠ '\r' := by
    rcases hc with hc | rfl
    · obtain ⟨hspace, htab, hcr, -⟩ := ne_of_not_isBodyBlank hc
      exact ⟨hspace, htab, hcr⟩
    · decide
  refine ⟨?_, ?_, fun xs ys hcs => ?_⟩
  · simpa [h.no_tab] using hne.2.1.symm
  · simpa [h.no_cr] using hne.2.2.symm
  · rcases concat_eq_append_cons hcs with ⟨-, -, hspace⟩ | ⟨zs, rfl, hbefore⟩
    · exact absurd hspace hne.1
    · obtain ⟨hleft, d, hd, hink⟩ := h.spaces xs zs hbefore
      exact ⟨hleft, d, by rw [List.head?_append, hd, Option.some_or], hink⟩

/-- A tidy text stays so with a space and another character behind it, within a line. -/
theorem Tidy.concat_space {cs : List Char} (h : Tidy cs) (hline : ¬ EndsLine cs) {c : Char}
    (hc : isBodyBlank c = false) : Tidy (cs ++ [' '] ++ [c]) := by
  have hne := ne_of_not_isBodyBlank hc
  refine ⟨?_, ?_, fun xs ys hcs => ?_⟩
  · simpa [h.no_tab] using hne.2.1.symm
  · simpa [h.no_cr] using hne.2.2.1.symm
  · rcases concat_eq_append_cons hcs with ⟨-, -, hspace⟩ | ⟨zs, rfl, hbefore⟩
    · exact absurd hspace hne.1
    · rcases concat_eq_append_cons hbefore with ⟨rfl, rfl, -⟩ | ⟨zs, rfl, hwithin⟩
      · obtain ⟨d, hlast, hd⟩ := exists_getLast?_of_not_endsLine hline
        have hspace : d ≠ ' ' := fun hspace => h.getLast?_ne (hspace ▸ hlast)
        exact ⟨⟨d, hlast, hspace, hd⟩, c, rfl, isInk_of_not_isBodyBlank hc⟩
      · obtain ⟨hleft, d, hd, hink⟩ := h.spaces xs zs hwithin
        exact ⟨hleft, d, by simp [hd], hink⟩

theorem spread_nil : Spread [] := by
  unfold Spread
  decide

/-- A line end keeps a text spread where no blank line is, and any other character does. -/
theorem Spread.concat {cs : List Char} (h : Spread cs) {c : Char}
    (hc : c = '\n' → ¬ EndsBlankLine cs) : Spread (cs ++ [c]) := by
  intro hinfix
  rw [belowBlankLine_concat, List.infix_concat_iff, List.suffix_concat_iff] at hinfix
  rcases hinfix with (hnil | ⟨t, ht, hsuffix⟩) | hinfix
  · cases hnil
  · obtain ⟨rfl, hnewline⟩ :=
      List.append_singleton_inj.1 (show ['\n', '\n'] ++ ['\n'] = t ++ [c] from ht)
    exact hc hnewline.symm hsuffix
  · exact h hinfix

/-- A spread text does not begin with a line end, and never has three of them in a row. -/
theorem Spread.no_three_breaks {cs : List Char} (h : Spread cs) :
    cs.head? ≠ some '\n' ∧ ¬ ['\n', '\n', '\n'] <:+: cs := by
  constructor
  · intro hhead
    obtain ⟨cs, rfl⟩ := List.head?_eq_some_iff.1 hhead
    exact h ⟨[], cs, rfl⟩
  · rintro ⟨xs, ys, rfl⟩
    exact h ⟨'\n' :: '\n' :: xs, ys, rfl⟩

/-! ### Layouts in normal form -/

namespace Layout

/-- A layout in normal form, when some text was handed out before. Its text is spread where no line
is broken but by the layout itself, which is what `spread` says. -/
structure Neat (spread : Prop) (before : List Char) (l : Layout) : Prop where
  /-- The flags say where the text ends. -/
  stands : l.Stands before
  /-- The text is tidy. -/
  tidy : Tidy (l.whole before)
  /-- The text is spread, if it should be. -/
  spread : spread → Spread (l.whole before)
  /-- The text is not preformatted. -/
  plain : l.preformatted = false

variable {spread : Prop} {before : List Char} {l : Layout}

theorem neat_start : Neat spread [] {} :=
  ⟨stands_start, tidy_nil, fun _ => spread_nil, rfl⟩

theorem Neat.dropSpace (h : l.Neat spread before) : l.dropSpace.Neat spread before :=
  ⟨h.stands.dropSpace, h.tidy, h.spread, h.plain⟩

theorem Neat.clear (h : l.Neat spread before) : l.clear.Neat spread (l.whole before) :=
  ⟨h.stands.clear, (whole_clear before l).symm ▸ h.tidy, (whole_clear before l).symm ▸ h.spread,
    h.plain⟩

/-- Writing a character that is no blank, or a line end where one may be written. -/
theorem Neat.emit (h : l.Neat spread before) {c : Char}
    (hc : isBodyBlank c = false ∨ c = '\n') (hspace : c = '\n' → l.spacePending = false)
    (hblank : c = '\n' → spread → l.afterBlankLine = false) :
    (l.emit c).Neat spread before := by
  refine ⟨h.stands.emit hspace, ?_, fun hspread => ?_, (preformatted_emit l c).trans h.plain⟩
  · rw [whole_emit]
    exact h.tidy.concat hc
  · rw [whole_emit]
    refine (h.spread hspread).concat fun hnewline => ?_
    rw [← h.stands.afterBlankLine, hblank hnewline hspread]
    exact Bool.false_ne_true

theorem Neat.emit_ink (h : l.Neat spread before) {c : Char} (hc : isBodyBlank c = false) :
    (l.emit c).Neat spread before := by
  have hne : c ≠ '\n' := (isInk_of_not_isBodyBlank hc).2
  exact h.emit (.inl hc) (fun hnewline => absurd hnewline hne) fun hnewline => absurd hnewline hne

/-- Writing a character behind the pending space. -/
theorem Neat.push (h : l.Neat spread before) {c : Char} (hc : isBodyBlank c = false) :
    (l.push c).Neat spread before := by
  rw [Layout.push, h.stands.flush_eq]
  split
  · -- the space alone would not be tidy, the space with the character is
    rename_i hspace
    have hline := h.stands.not_endsLine hspace
    have hne : c ≠ '\n' := (isInk_of_not_isBodyBlank hc).2
    refine ⟨?_, ?_, fun hspread => ?_, ?_⟩
    · have hpush := h.stands.push c
      rwa [Layout.push, h.stands.flush_eq, if_pos hspace] at hpush
    · rw [whole_emit, whole_emit]
      exact h.tidy.concat_space hline hc
    · rw [whole_emit, whole_emit]
      have hwith : Spread (l.whole before ++ [' ']) :=
        (h.spread hspread).concat fun hnewline => absurd hnewline (by decide)
      exact hwith.concat fun hnewline => absurd hnewline hne
    · rw [preformatted_emit, preformatted_emit]
      exact h.plain
  · exact h.emit_ink hc

theorem Neat.blank (h : l.Neat spread before) : l.blank.Neat spread before := by
  have hwhole : l.blank.whole before = l.whole before := by
    unfold Layout.blank
    split <;> rfl
  exact ⟨h.stands.blank, hwhole ▸ h.tidy, hwhole ▸ h.spread,
    (preformatted_blank l).trans h.plain⟩

theorem Neat.startLine (h : l.Neat spread before) : l.startLine.Neat spread before := by
  rw [Layout.startLine]
  split
  · exact h
  · rename_i hstart
    refine h.dropSpace.emit (.inr rfl) (fun _ => rfl) fun _ _ => Bool.eq_false_iff.2 ?_
    intro hblank
    exact hstart (h.stands.atLineStart.2 (h.stands.afterBlankLine.1 hblank).endsLine)

theorem Neat.leaveBlankLine (h : l.Neat spread before) :
    l.leaveBlankLine.Neat spread before := by
  rw [Layout.leaveBlankLine]
  split
  · exact h.dropSpace
  · rename_i hblank
    have hnone : l.dropSpace.startLine.afterBlankLine = false :=
      afterBlankLine_startLine (Bool.eq_false_iff.2 hblank)
    exact h.dropSpace.startLine.emit (.inr rfl)
      (fun _ => h.dropSpace.stands.spacePending_startLine) fun _ _ => hnone

theorem Neat.foldl_emit (h : l.Neat spread before) {cs : List Char}
    (hcs : ∀ c ∈ cs, isBodyBlank c = false) : (cs.foldl Layout.emit l).Neat spread before := by
  induction cs generalizing l with
  | nil => exact h
  | cons c cs ih =>
    exact ih (h.emit_ink (hcs c List.mem_cons_self)) fun d hd => hcs d (List.mem_cons_of_mem c hd)

/-- A text that is not empty and has no line end leaves no blank line. -/
theorem afterBlankLine_foldl_emit {cs : List Char} (hne : cs ≠ []) (hcs : '\n' ∉ cs)
    (l : Layout) : (cs.foldl Layout.emit l).afterBlankLine = false := by
  rcases List.eq_nil_or_concat cs with rfl | ⟨cs, c, rfl⟩
  · exact absurd rfl hne
  · rw [List.concat_eq_append] at hcs ⊢
    have hc : c ≠ '\n' := by
      rintro rfl
      exact hcs List.mem_concat_self
    rw [List.foldl_append, List.foldl_cons, List.foldl_nil, Layout.emit, if_neg hc]

/-- Drawing a rule: its text on a line of its own. -/
theorem Neat.drawRule (h : l.Neat spread before) {rule : String} (hne : rule ≠ "")
    (hrule : ∀ c ∈ rule.toList, isBodyBlank c = false) :
    ((l.startLine.append rule).push '\n').Neat spread before := by
  have hspace := h.stands.spacePending_startLine
  have hspace' : (rule.toList.foldl Layout.emit l.startLine).spacePending = false := by
    rw [spacePending_foldl_emit, hspace]
  rw [Layout.append, flush_of_not_spacePending hspace, Layout.push,
    flush_of_not_spacePending hspace']
  refine (h.startLine.foldl_emit hrule).emit (.inr rfl) (fun _ => hspace') fun _ _ => ?_
  refine afterBlankLine_foldl_emit (by simpa using hne) (fun hnewline => ?_) _
  exact absurd (hrule '\n' hnewline) (by decide)

/-- Breaking a line, where the text need not be spread. -/
theorem Neat.breakLine (h : l.Neat spread before) (hspread : ¬ spread) :
    (l.dropSpace.push '\n').Neat spread before := by
  rw [Layout.push, flush_of_not_spacePending rfl]
  exact h.dropSpace.emit (.inr rfl) (fun _ => rfl) fun _ hs => absurd hs hspread

theorem Neat.closePreformatted (h : l.Neat spread before) :
    (l.setPreformatted false).Neat spread before :=
  ⟨h.stands.setPreformatted false, h.tidy, h.spread, rfl⟩

end Layout

/-! ### Writing items -/

/-- What a tag does. -/
def Item.action? : Item → Option Action
  | .tag text =>
    match Tag.read text with
    | .nothing => none
    | .complete found | .unclosed found => Action.ofName? found.name
  | .char _ | .blank _ | .reference _ | .skipped | .unclosed _ => none

/-- An item that writes no blank as it is. -/
def Item.IsLiteral : Item → Prop
  | .char c => isBodyBlank c = false
  | .reference _ => False
  | .blank _ | .skipped | .tag _ | .unclosed _ => True

/-- What is asked of an item in a text that shall be spread if `spread`. -/
structure Item.Harmless (spread : Prop) (item : Item) : Prop where
  /-- The item writes no blank as it is. -/
  literal : item.IsLiteral
  /-- The item does not start preformatted text. -/
  plain : item.action? ≠ some .openPreformatted
  /-- The item does not break a line, if the text shall be spread. -/
  unbroken : spread → item.action? ≠ some .breakLine

namespace Writer

variable {spread : Prop} {before : List Char} {w : Writer}

/-- A writer in normal form. -/
structure Neat (spread : Prop) (before : List Char) (w : Writer) : Prop where
  /-- The layout is in normal form. -/
  layout : w.layout.Neat spread before
  /-- A rule can be seen. -/
  rule_ne : w.rule ≠ ""
  /-- A rule has no blanks. -/
  rule : ∀ c ∈ w.rule.toList, isBodyBlank c = false

/-- What a writer in normal form comes to by one item more. -/
inductive Neat.Next (spread : Prop) (before : List Char) : Option Chunk × Writer → Prop
  /-- The writer goes on. -/
  | onward {w : Writer} : w.Neat spread before → Next spread before (none, w)
  /-- The writer hands its text out. -/
  | handed {k : Chunk} {w : Writer} : w.Neat spread (before ++ k.text.toList) →
      Next spread before (some k, w)

theorem Neat.edit (h : w.Neat spread before) (transition : Transition) {f : Layout → Layout}
    (hf : (f w.layout).Neat spread before) : (w.edit transition f).Neat spread before :=
  ⟨hf, h.rule_ne, h.rule⟩

theorem Neat.report (h : w.Neat spread before) (d : Diagnostic) :
    (w.report d).Neat spread before := by
  unfold Writer.report
  split
  · exact ⟨h.layout, h.rule_ne, h.rule⟩
  · exact h

theorem Neat.noteMarkup (h : w.Neat spread before) : w.noteMarkup.Neat spread before :=
  ⟨h.layout, h.rule_ne, h.rule⟩

/-- A link that opens or closes hands the text out. -/
theorem Neat.cut (h : w.Neat spread before) (transition : Transition) (link link' : Option String) :
    Neat.Next spread before
      (some ({ w with transition := transition, link := link }.cut link').1,
        ({ w with transition := transition, link := link }.cut link').2) :=
  .handed ⟨h.layout.clear, h.rule_ne, h.rule⟩

/-- What a tag does keeps a writer in normal form. -/
theorem Neat.perform (h : w.Neat spread before) (tag : Tag) {action : Action}
    (hplain : action ≠ .openPreformatted) (hunbroken : spread → action ≠ .breakLine) :
    Neat.Next spread before (w.perform tag action) := by
  cases action with
  | breakLine =>
    have hspread : ¬ spread := fun hspread => hunbroken hspread rfl
    exact .onward (h.edit _ (h.layout.breakLine hspread))
  | openLink =>
    unfold Writer.perform
    cases tag.value? "href" with
    | none => exact .onward h
    | some target => exact h.cut _ _ _
  | closeLink => exact h.cut _ _ _
  | startParagraph => exact .onward (h.edit _ h.layout.leaveBlankLine)
  | openPreformatted => exact absurd rfl hplain
  | closePreformatted => exact .onward (h.edit _ h.layout.closePreformatted)
  | drawRule => exact .onward (h.edit _ (h.layout.drawRule h.rule_ne h.rule))
  | startLine => exact .onward (h.edit _ h.layout.startLine)
  | leaveBlankLine => exact .onward (h.edit _ h.layout.leaveBlankLine)

theorem Neat.writeTag (h : w.Neat spread before) (tag : Tag)
    (hplain : Action.ofName? tag.name ≠ some .openPreformatted)
    (hunbroken : spread → Action.ofName? tag.name ≠ some .breakLine) :
    Neat.Next spread before (w.writeTag tag) := by
  unfold Writer.writeTag
  cases haction : Action.ofName? tag.name with
  | none => exact .onward h
  | some action =>
    rw [haction] at hplain hunbroken
    exact h.perform tag (fun heq => hplain (congrArg some heq))
      fun hspread heq => hunbroken hspread (congrArg some heq)

/-- **An item keeps a writer in normal form.** -/
theorem Neat.write (h : w.Neat spread before) {item : Item} (hitem : item.Harmless spread) :
    Neat.Next spread before (w.write item) := by
  obtain ⟨hliteral, hplain, hunbroken⟩ := hitem
  cases item with
  | char c => exact .onward ⟨h.layout.push hliteral, h.rule_ne, h.rule⟩
  | blank c =>
    rw [write_blank h.layout.plain]
    exact .onward ⟨h.layout.blank, h.rule_ne, h.rule⟩
  | reference token => exact absurd hliteral not_false
  | skipped => exact .onward h.noteMarkup
  | tag text =>
    rw [Item.action?] at hplain hunbroken
    rw [Writer.write]
    cases hread : Tag.read text with
    | nothing => exact .onward h.noteMarkup
    | complete tag =>
      rw [hread] at hplain hunbroken
      exact h.noteMarkup.writeTag tag hplain hunbroken
    | unclosed tag =>
      rw [hread] at hplain hunbroken
      exact (h.noteMarkup.report _).writeTag tag hplain hunbroken
  | unclosed text => exact .onward (h.noteMarkup.report _)

/-- **The text of harmless items is in normal form**, behind all that was handed out before. -/
theorem Neat.compose (h : w.Neat spread before) {items : List Item}
    (hitems : ∀ item ∈ items, item.Harmless spread) :
    Tidy (before ++ (Passage.joined (w.compose items)).toList) ∧
      (spread → Spread (before ++ (Passage.joined (w.compose items)).toList)) := by
  induction items generalizing before w with
  | nil =>
    have hjoined : Passage.joined (w.compose []) = w.layout.text := by
      rw [Writer.compose, Passage.joined_prepend]
      exact String.append_empty
    rw [hjoined]
    exact ⟨h.layout.tidy, h.layout.spread⟩
  | cons item items ih =>
    have hnext := h.write (hitems item List.mem_cons_self)
    have hlater : ∀ item ∈ items, item.Harmless spread := fun item' hitem' =>
      hitems item' (List.mem_cons_of_mem item hitem')
    generalize hwrite : w.write item = result at hnext
    cases hnext with
    | onward hneat =>
      rw [compose_of_none hwrite]
      exact ih hneat hlater
    | handed hneat =>
      rw [compose_of_some hwrite, Passage.joined, List.map_cons, String.join_cons,
        String.toList_append, ← List.append_assoc]
      exact ih hneat hlater

end Writer

/-! ### The items of a body -/

/-- A character that stands for itself is no blank. -/
theorem Head.not_isBodyBlank_of_char {cs rest : List Char} {c : Char}
    (h : Head.of? cs = some (.char c rest)) : isBodyBlank c = false := by
  rw [Head.of?.eq_def] at h
  split at h
  · cases h
  · cases h
  · split at h
    · split at h <;> cases h
    · split at h
      · cases h
      · split at h
        · cases h
        · rename_i hblank
          cases h
          exact Bool.eq_false_iff.2 hblank

namespace Supply

theorem isLiteral_readItem {s : Supply} {head : Head} (hhead : Head.of? s.atHand = some head)
    (h : '&' ∉ s.text) : (s.readItem head).1.IsLiteral := by
  cases head with
  | block b rest => trivial
  | tag rest =>
    rw [readItem]
    split <;> trivial
  | ampersand rest =>
    rw [text, Head.eq_cons_of_ampersand hhead] at h
    exact absurd List.mem_cons_self h
  | blank c rest => trivial
  | char c rest => exact Head.not_isBodyBlank_of_char hhead

/-- A text without `&` holds no references, and none of its blanks stands for itself. -/
theorem isLiteral_items {s : Supply} (h : '&' ∉ s.text) : ∀ item ∈ s.items, item.IsLiteral := by
  fun_induction items s with
  | case1 s head hhead _ ih =>
    have hlater := ih fun hmem => h ((leaves_of_head hhead).suffix_text.mem hmem)
    intro item hitem
    rcases List.mem_cons.1 hitem with rfl | hitem
    · exact isLiteral_readItem hhead h
    · exact hlater item hitem
  | case2 => exact fun item hitem => absurd hitem List.not_mem_nil
  | case3 s hnone _ part parts hlater _ ih =>
    refine ih fun hmem => h ?_
    have htext : s.text = text ⟨part, parts⟩ := by
      rw [text, text, Head.of?_eq_none_iff.1 hnone, hlater, List.nil_append, List.flatten_cons]
    exact htext ▸ hmem

end Supply

namespace Converter

/-- **The text of a conversion is in normal form.** Whatever its charset and the line limit, a body
whose text has no `&` and whose items do not start preformatted text comes to a text whose only
blanks, but for line ends, are single spaces between two characters of one line; and if its items
break no line, the text does not begin with a line end, and has no more than one blank line in a
row. The rule must be a text without blanks. -/
theorem run_in_normal_form {stream : Stream} (hstream : stream.Unbroken) (charset : Charset)
    (config : Config) (hrule_ne : config.horizontalRule ≠ "")
    (hrule : ∀ c ∈ config.horizontalRule.toList, isBodyBlank c = false)
    (hamp : '&' ∉ (charset.parts (max config.lineLimit 1) stream.bytes).flatten)
    (hpre : ∀ item ∈ (start stream charset config).supply.items,
      item.action? ≠ some .openPreformatted) :
    (start stream charset config).run.failure = none ∧
      Tidy (start stream charset config).run.text.toList ∧
      ((∀ item ∈ (start stream charset config).supply.items, item.action? ≠ some .breakLine) →
        (start stream charset config).run.text.toList.head? ≠ some '\n' ∧
          ¬ ['\n', '\n', '\n'] <:+: (start stream charset config).run.text.toList) := by
  have hsteady : (start stream charset config).Steady True :=
    ⟨Reader.steady_start hstream charset config.lineLimit, fun _ _ _ => trivial⟩
  obtain ⟨hfailure, hdelivers⟩ := delivers_run hsteady
  have hpassages := hdelivers.passages_eq (Writer.quiet_renew _)
  have htext : (start stream charset config).run.text = Passage.joined
      ((start stream charset config).writer.renew.compose
        (start stream charset config).supply.items) := by
    rw [← hpassages, Passage.joined_ofChunks, List.map_map]
    rfl
  have hliteral := Supply.isLiteral_items (s := (start stream charset config).supply) hamp
  have hneat : (start stream charset config).writer.renew.Neat
      (∀ item ∈ (start stream charset config).supply.items, item.action? ≠ some .breakLine) [] :=
    ⟨Layout.neat_start, hrule_ne, hrule⟩
  have hform := hneat.compose fun item hitem =>
    ⟨hliteral item hitem, hpre item hitem, fun hbreak => hbreak item hitem⟩
  rw [htext]
  exact ⟨hfailure, hform.1, fun hbreak => (hform.2 hbreak).no_three_breaks⟩

/-- A paragraph and a rule between blanks, in a body whose tags are cut by the line limit. -/
def ruledBody : Stream :=
  [.segment [0x61, 0x20, 0x3C, 0x70, 0x3E, 0x09, 0x3C], .interrupted,
    .segment [0x68, 0x72, 0x3E, 0x20, 0x62, 0x20]]

theorem run_ruledBody_in_normal_form :
    (ruledBody.Unbroken ∧
        '&' ∉ (Charset.utf8.parts (max 4 1) ruledBody.bytes).flatten ∧
        (start ruledBody .utf8 ⟨4, "--"⟩).supply.items.map Item.action? =
          [none, none, some .startParagraph, none, some .drawRule, none, none, none]) ∧
      (start ruledBody .utf8 ⟨4, "--"⟩).run.failure = none ∧
      Tidy (start ruledBody .utf8 ⟨4, "--"⟩).run.text.toList ∧
      (start ruledBody .utf8 ⟨4, "--"⟩).run.text.toList.head? ≠ some '\n' ∧
      ¬ ['\n', '\n', '\n'] <:+: (start ruledBody .utf8 ⟨4, "--"⟩).run.text.toList := by
  have hstream : ruledBody.Unbroken := trivial
  have hparts : (Charset.utf8.parts (max 4 1) ruledBody.bytes).flatten =
      ['a', ' ', '<', 'p', '>', '\t', '<', 'h', 'r', '>', ' ', 'b', ' '] := by cbv
  have hamp : '&' ∉ (Charset.utf8.parts (max 4 1) ruledBody.bytes).flatten := by
    rw [hparts]
    decide
  have hactions : (start ruledBody .utf8 ⟨4, "--"⟩).supply.items.map Item.action? =
      [none, none, some .startParagraph, none, some .drawRule, none, none, none] := by cbv
  have hnot (action : Action) (hno : some action ∉ ([none, none, some .startParagraph, none,
      some .drawRule, none, none, none] : List (Option Action))) :
      ∀ item ∈ (start ruledBody .utf8 ⟨4, "--"⟩).supply.items, item.action? ≠ some action := by
    intro item hitem haction
    have hmem := List.mem_map_of_mem (f := Item.action?) hitem
    rw [hactions, haction] at hmem
    exact hno hmem
  have hrule : ∀ c ∈ "--".toList, isBodyBlank c = false := by simp [isBodyBlank]
  obtain ⟨hfailure, htidy, hspread⟩ := run_in_normal_form hstream .utf8 ⟨4, "--"⟩ (by decide)
    hrule hamp (hnot .openPreformatted (by decide))
  exact ⟨⟨hstream, hamp, hactions⟩, hfailure, htidy, hspread (hnot .breakLine (by decide))⟩

end Converter

end BodyText
