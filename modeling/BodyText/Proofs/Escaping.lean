import BodyText.Proofs.PlainText

/-!
# Escaped text

A text stands in a body with its `&` and `<` written as references (`escape`). What is written in a
body in this way, character by character, with tags among them, are its glyphs, and they are what is
read again, wherever the parts of the text end (`Supply.reads_items`). Only a CR LF may come to one
blank or to two; outside of preformatted text that makes no difference
(`Glyph.Reads.compose_eq`).
-/

namespace BodyText

/-- A character as it is written in a body. -/
def escapeChar (c : Char) : List Char :=
  if c = '&' then ['&', 'a', 'm', 'p', ';']
  else if c = '<' then ['&', 'l', 't', ';']
  else [c]

/-- A text as it is written in a body. -/
def escape (text : List Char) : List Char := text.flatMap escapeChar

/-- One thing that is written in a body. -/
inductive Glyph where
  /-- A character of the text. -/
  | char (c : Char)
  /-- A tag, as the text between `<` and `>`. -/
  | tag (text : List Char)
  deriving DecidableEq, Repr

namespace Glyph

/-- What is written for a glyph. -/
def written : Glyph → List Char
  | char c => escapeChar c
  | tag text => '<' :: (text ++ ['>'])

/-- What a glyph is read as. -/
def item : Glyph → Item
  | char c => if c = '&' ∨ c = '<' then .reference (escapeChar c) else .plain c
  | tag text => .tag text

/-- A tag that opens no block and has no `>` but the one that ends it. -/
def Told : Glyph → Prop
  | char _ => True
  | tag text => '>' ∉ text ∧ ∀ rest, Block.opened? ('<' :: (text ++ '>' :: rest)) = none

theorem written_ne_nil (g : Glyph) : g.written ≠ [] := by
  cases g with
  | tag text => exact List.cons_ne_nil _ _
  | char c =>
    rw [written, escapeChar]
    split
    · exact List.cons_ne_nil _ _
    · split <;> exact List.cons_ne_nil _ _

theorem written_char {c : Char} (hamp : c ≠ '&') (hlt : c ≠ '<') : (char c).written = [c] := by
  rw [written, escapeChar, if_neg hamp, if_neg hlt]

/-- A line end is written only for itself. -/
theorem eq_of_written {g : Glyph} {rest more : List Char} (h : g.written ++ rest = '\n' :: more) :
    g = char '\n' ∧ rest = more := by
  cases g with
  | tag text => exact absurd (List.cons.inj h).1 (by decide)
  | char c =>
    rw [written, escapeChar] at h
    split at h
    · exact absurd (List.cons.inj h).1 (by decide)
    · split at h
      · exact absurd (List.cons.inj h).1 (by decide)
      · obtain ⟨rfl, hrest⟩ := List.cons.inj h
        exact ⟨rfl, hrest⟩

/-- Glyphs and the items that they are read as. A CR LF may come to one blank. -/
inductive Reads : List Glyph → List Item → Prop
  /-- Nothing is written. -/
  | nil : Reads [] []
  /-- A glyph is read as its item. -/
  | cons {g : Glyph} {gs : List Glyph} {items : List Item} : Reads gs items →
      Reads (g :: gs) (g.item :: items)
  /-- A CR LF is read as one blank. -/
  | crlf {gs : List Glyph} {items : List Item} : Reads gs items →
      Reads (char '\r' :: char '\n' :: gs) (.blank '\n' :: items)

end Glyph

/-! ### Reading glyphs -/

/-- The references to `&` and `<` are told wherever they stand. -/
theorem Reference.token?_escapeChar {c : Char} (h : c = '&' ∨ c = '<') (rest : List Char) :
    token? (escapeChar c ++ rest) = some (escapeChar c, rest) := by
  rcases h with rfl | rfl <;> rfl

namespace Supply

variable {s : Supply} {rest : List Char}

/-- Reading a character that was written as a reference. -/
theorem exists_read_escaped (h : s.Lined false) (hatHand : s.atHand ≠ []) {c : Char}
    (hc : c = '&' ∨ c = '<') (htext : s.text = escapeChar c ++ rest) :
    ∃ s' : Supply, s.items = .reference (escapeChar c) :: s'.items ∧ s'.text = rest ∧
      s.Within s' := by
  obtain ⟨token, htoken⟩ : ∃ token, escapeChar c = '&' :: token := by
    rcases hc with rfl | rfl <;> exact ⟨_, rfl⟩
  have hline : '\n' ∉ escapeChar c := by
    rcases hc with rfl | rfl <;> decide
  have htokens := Reference.token?_escapeChar hc
  rw [htoken] at htext hline htokens ⊢
  exact exists_read_reference h hatHand htext hline htokens

/-- Reading a tag that opens no block: what is at hand of it opens none either. -/
theorem exists_read_told (h : s.Lined false) (hatHand : s.atHand ≠ []) {text : List Char}
    (hg : (Glyph.tag text).Told) (htext : s.text = (Glyph.tag text).written ++ rest) :
    ∃ s' : Supply, s.items = .tag text :: s'.items ∧ s'.text = rest ∧ s.Within s' := by
  obtain ⟨hclosed, hopened⟩ := hg
  have htext : s.text = '<' :: (text ++ '>' :: rest) := by
    rw [htext, Glyph.written, List.cons_append, List.append_assoc]
    rfl
  have hnone : Block.opened? s.atHand = none := by
    rw [Option.eq_none_iff_forall_ne_some]
    rintro ⟨b, after⟩ hsome
    have hwhole := Block.opened?_append_of_some hsome s.later.flatten
    rw [← Supply.text, htext, hopened rest] at hwhole
    cases hwhole
  exact exists_read_tag h hatHand htext hnone hclosed

/-- Reading a glyph: it is read as its item, or a CR with the LF behind it as one blank. -/
theorem exists_read_glyph {g : Glyph} (h : s.Lined false) (hg : g.Told)
    (htext : s.text = g.written ++ rest) :
    ∃ s' : Supply, s'.Lined false ∧
      (s.items = g.item :: s'.items ∧ s'.text = rest ∨
        g = .char '\r' ∧ rest = '\n' :: s'.text ∧ s.items = .blank '\n' :: s'.items) := by
  obtain ⟨s₁, hwithin, htext₁, hitems₁, hne⟩ := exists_atHand (.refl s)
    (by rw [htext]; exact List.append_ne_nil_of_left_ne_nil g.written_ne_nil _)
  have hlined := hwithin.lined h
  rw [htext] at htext₁
  rw [← hitems₁]
  cases g with
  | tag text =>
    obtain ⟨s', hitems, hs', hwithin'⟩ := exists_read_told hlined hne hg htext₁
    exact ⟨s', hwithin'.lined hlined, .inl ⟨hitems, hs'⟩⟩
  | char c =>
    rw [Glyph.item]
    by_cases hc : c = '&' ∨ c = '<'
    · obtain ⟨s', hitems, hs', hwithin'⟩ := exists_read_escaped hlined hne hc htext₁
      rw [if_pos hc]
      exact ⟨s', hwithin'.lined hlined, .inl ⟨hitems, hs'⟩⟩
    · obtain ⟨hamp, hlt⟩ := not_or.1 hc
      rw [Glyph.written_char hamp hlt] at htext₁
      obtain ⟨s', hwithin', hread⟩ := exists_read_char hwithin hlt hamp htext₁
      rw [if_neg hc]
      refine ⟨s', hwithin'.lined h, hread.imp_right ?_⟩
      rintro ⟨hcr, hcrlf⟩
      exact ⟨congrArg Glyph.char hcr, hcrlf⟩

/-- A supply of no text holds no items. -/
theorem items_of_text_nil (h : s.text = []) : s.items = [] := by
  obtain ⟨cs, parts⟩ := s
  obtain ⟨rfl, hparts⟩ := List.append_eq_nil_iff.1 h
  induction parts with
  | nil => exact items_nil
  | cons part parts ih =>
    obtain ⟨rfl, hparts⟩ := List.append_eq_nil_iff.1 hparts
    rw [items_cons]
    exact ih hparts hparts

/-- **What is written is read again**, wherever the parts of the text end. -/
theorem reads_items {gs : List Glyph} (h : s.Lined false) (hgs : ∀ g ∈ gs, g.Told)
    (htext : s.text = gs.flatMap Glyph.written) : Glyph.Reads gs s.items := by
  -- by induction on the number of glyphs, as a CR LF takes two of them
  induction hlen : gs.length using Nat.strongRecOn generalizing gs s with
  | ind n ih =>
    cases gs with
    | nil =>
      rw [items_of_text_nil htext]
      exact .nil
    | cons g gs =>
      rw [List.flatMap_cons] at htext
      rw [List.length_cons] at hlen
      have hlater : ∀ g ∈ gs, g.Told := fun g hg => hgs g (List.mem_cons_of_mem _ hg)
      obtain ⟨s', hlined, ⟨hitems, hs'⟩ | ⟨rfl, hrest, hitems⟩⟩ :=
        exists_read_glyph h (hgs g List.mem_cons_self) htext
      · rw [hitems]
        exact .cons (ih gs.length (by omega) hlined hlater hs' rfl)
      · cases gs with
        | nil => cases hrest
        | cons g' gs =>
          rw [List.flatMap_cons] at hrest
          obtain ⟨rfl, hs'⟩ := Glyph.eq_of_written hrest
          rw [List.length_cons] at hlen
          rw [hitems]
          exact .crlf (ih gs.length (by omega) hlined
            (fun g hg => hlater g (List.mem_cons_of_mem _ hg)) hs'.symm rfl)

end Supply

/-! ### Writing glyphs -/

namespace Writer

/-- Two lists of items compose to the same behind an item. -/
theorem compose_cons_congr {w : Writer} {item : Item} {items items' : List Item}
    (h : (w.write item).2.compose items = (w.write item).2.compose items') :
    w.compose (item :: items) = w.compose (item :: items') := by
  rw [compose, compose]
  split
  · rename_i hwrite
    rw [hwrite] at h
    rw [h]
  · rename_i hwrite
    rwa [hwrite] at h

end Writer

namespace Glyph

/-- The glyph starts no preformatted text. -/
def Inline (g : Glyph) : Prop :=
  ∀ w : Writer, w.layout.preformatted = false → (w.write g.item).2.layout.preformatted = false

/-- A character is written as itself, also when it was read as a reference. -/
theorem write_char (w : Writer) (c : Char) :
    w.write (char c).item = (none, (w.write (.plain c)).2) := by
  by_cases h : c = '&' ∨ c = '<'
  · rw [item, if_pos h]
    rcases h with rfl | rfl <;> rfl
  · rw [item, if_neg h]
    exact w.write_plain c

theorem inline_char (c : Char) : (char c).Inline := by
  intro w hw
  rw [write_char]
  exact Writer.preformatted_write_plain hw c

/-- **A CR LF comes to the same as one blank or as two**, outside of preformatted text. -/
theorem Reads.compose_eq {gs : List Glyph} {items : List Item} (h : Reads gs items)
    (hgs : ∀ g ∈ gs, g.Inline) {w : Writer} (hw : w.layout.preformatted = false) :
    w.compose items = w.compose (gs.map item) := by
  induction h generalizing w with
  | nil => rfl
  | @cons g gs items _ ih =>
    rw [List.map_cons]
    apply Writer.compose_cons_congr
    exact ih (fun g hg => hgs g (List.mem_cons_of_mem _ hg)) (hgs g List.mem_cons_self w hw)
  | @crlf gs items _ ih =>
    have hblank : ({ w with layout := w.layout.blank } : Writer).layout.preformatted = false := by
      rw [Layout.preformatted_blank, hw]
    have hlater : ∀ g ∈ gs, g.Inline := fun g hg =>
      hgs g (List.mem_cons_of_mem _ (List.mem_cons_of_mem _ hg))
    have hcr : (char '\r').item = .blank '\r' := rfl
    have hlf : (char '\n').item = .blank '\n' := rfl
    rw [List.map_cons, List.map_cons, hcr, hlf, Writer.compose_of_none (Writer.write_blank hw '\n'),
      Writer.compose_of_none (Writer.write_blank hw '\r'),
      Writer.compose_of_none (Writer.write_blank hblank '\n'), ih hlater hblank, Layout.blank_blank]

end Glyph

/-- Characters are written as the text that they are. -/
theorem Writer.compose_chars (w : Writer) (text : List Char) (items : List Item) :
    w.compose ((text.map Glyph.char).map Glyph.item ++ items) =
      (w.writePlain text).compose items := by
  induction text generalizing w with
  | nil => rfl
  | cons c text ih =>
    rw [List.map_cons, List.map_cons, List.cons_append,
      compose_of_none (Glyph.write_char w c), ih]
    rfl

end BodyText
