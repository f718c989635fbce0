import BodyText.Proofs.Escaping
import BodyText.Proofs.Flags
import BodyText.Proofs.SkippedBlocks

/-!
# Bare ampersands

A `&` that no reference starts with stands for itself, and so may be left as it is where `&amp;` is
meant. Where its line has no `;` close behind it, what follows it is read as anywhere else. Where
there is one, the text through the `;` is taken for a reference; when it is none that is known, it
is kept as it is, whatever it holds. It then shows what it shows behind `&amp;` if it `StandsAsIs`:
it has no tags and no blanks but single spaces (`plainText_ampersand`). A reference that stands
directly behind a `&` is kept with it, and not resolved (`plainTextOf_ampersand_reference`).
-/

namespace BodyText

/-! ### Parts of references -/

namespace Reference

/-- More room finds the same reference. -/
theorem tokenWithin?_mono {room room' : Nat} (hroom : room ≤ room') {cs : List Char}
    {parts : List Char × List Char} (h : tokenWithin? room cs = some parts) :
    tokenWithin? room' cs = some parts := by
  induction cs generalizing room room' parts with
  | nil => cases h
  | cons c cs ih =>
    rw [tokenWithin?] at h ⊢
    split at h
    · cases h
    · rename_i hsize
      rw [if_neg (by omega)]
      split at h
      · rename_i hc
        rw [if_pos hc, h]
      · rename_i hc
        obtain ⟨parts', hparts', rfl⟩ := Option.map_eq_some_iff.1 h
        rw [if_neg hc, ih (by omega) hparts', Option.map_some]

/-- A text that ends with its first `;`, early enough for a reference. -/
def IsToken (token : List Char) : Prop := token? token = some (token, [])

variable {token : List Char}

/-- What is found in the window is what the text starts with. -/
theorem exists_of_token?_window {text rest : List Char}
    (h : token? (window false text) = some (token, rest)) :
    IsToken token ∧ '\n' ∉ token ∧ ∃ more, text = token ++ more := by
  obtain ⟨-, hwindow⟩ := eq_append_of_tokenWithin? h
  refine ⟨?_, fun hmem => ?_, ?_⟩
  · rw [hwindow, token?, tokenWithin?_append (.inr (.inl (mem_of_tokenWithin? h)))] at h
    obtain ⟨⟨token', rest'⟩, htoken, hparts⟩ := Option.map_eq_some_iff.1 h
    obtain ⟨rfl, hrest⟩ := Prod.mk.inj hparts
    obtain rfl : rest' = [] := List.append_left_eq_self.1 hrest
    exact htoken
  · have hnewline : '\n' ∈ window false text := by
      rw [hwindow]
      exact List.mem_append_left rest hmem
    simpa using List.mem_takeWhile_imp hnewline
  · obtain ⟨more, hmore⟩ := List.takeWhile_prefix (· ≠ '\n') (l := text)
    exact ⟨rest ++ more, by rw [← List.append_assoc, ← hwindow]; exact hmore.symm⟩

/-- A reference that holds no line end is found in front of anything. -/
theorem IsToken.token?_window (h : IsToken token) (hline : '\n' ∉ token) (more : List Char) :
    token? (window false (token ++ more)) = some (token, window false more) := by
  rw [window_of_not_mem hline, token?, tokenWithin?_append (.inr (.inl (mem_of_tokenWithin? h))),
    show tokenWithin? maxBytes token = some (token, []) from h]
  rfl

/-- The end of a reference ends at the same `;`. -/
theorem IsToken.of_cons {c : Char} {cs : List Char} (h : IsToken (c :: cs)) (hne : cs ≠ []) :
    IsToken cs := by
  rw [IsToken, token?, tokenWithin?] at h
  split at h
  · cases h
  · split at h
    · cases h
      exact absurd rfl hne
    · obtain ⟨⟨token', rest'⟩, htoken, hparts⟩ := Option.map_eq_some_iff.1 h
      cases hparts
      exact tokenWithin?_mono (Nat.sub_le ..) htoken

end Reference

/-- What stands behind a `&` through a `;`, and comes to the same whether it is kept as it is or read
like any text: it has no tags and no blanks but single spaces, as far as it is not itself kept
because of a further `&`. -/
inductive StandsAsIs : List Char → Prop
  /-- The `;` alone. -/
  | last : StandsAsIs [';']
  /-- A further `&`, with which the rest is no known reference either. -/
  | ampersand {cs : List Char} : Reference.resolve? false ('&' :: cs) = none →
      StandsAsIs ('&' :: cs)
  /-- A character that is written as itself. -/
  | char {c : Char} {cs : List Char} : c ≠ '<' → c ≠ '&' → isBodyBlank c = false →
      StandsAsIs cs → StandsAsIs (c :: cs)
  /-- A single space. -/
  | space {c : Char} {cs : List Char} : isBodyBlank c = false → StandsAsIs (c :: cs) →
      StandsAsIs (' ' :: c :: cs)

/-- The text behind a `&` is not disturbed by it: where the two are taken for a reference, that is
not known, and shows what it would show behind `&amp;`. -/
def Undisturbed (rest : List Char) : Prop :=
  ∀ token more, Reference.token? (window false ('&' :: rest)) = some ('&' :: token, more) →
    Reference.resolve? false ('&' :: token) = none ∧ StandsAsIs token

/-! ### Writing within a line -/

namespace Layout

variable {l : Layout}

theorem spacePending_push (h : l.preformatted = false) (c : Char) :
    (l.push c).spacePending = false := by
  rw [push, spacePending_emit, flush]
  split
  · rw [spacePending_emit]
  · rename_i hspace
    simpa [h] using hspace

theorem atLineStart_push {c : Char} (hc : c ≠ '\n') : (l.push c).atLineStart = false := by
  rw [push, emit, if_neg hc]

/-- Some text is written character by character. -/
theorem append_cons (h : l.preformatted = false) (c : Char) (cs : List Char) :
    l.append (String.ofList (c :: cs)) = (l.push c).append (String.ofList cs) := by
  rw [append, append, String.toList_ofList, String.toList_ofList, List.foldl_cons,
    flush_of_not_spacePending (spacePending_push h c)]
  rfl

/-- A single space may as well be pending, where a text goes on. -/
theorem append_space (h : l.preformatted = false) (hline : l.atLineStart = false)
    (hspace : l.spacePending = false) (cs : List Char) :
    l.append (String.ofList (' ' :: cs)) = l.blank.append (String.ofList cs) := by
  have hpush : l.push ' ' = l.emit ' ' := by rw [push, flush_of_not_spacePending hspace]
  have hself : ({ l with spacePending := false } : Layout) = l := by rw [← hspace]
  have hblank : l.blank = { l with spacePending := true } := by
    rw [blank, h, hline]
    rfl
  have hflush : l.blank.flush = l.emit ' ' := by
    rw [hblank, flush]
    rw [if_pos (by simp [h])]
    exact congrArg (emit · ' ') hself
  have hnone : (l.emit ' ').flush = l.emit ' ' :=
    flush_of_not_spacePending ((spacePending_emit l ' ').trans hspace)
  rw [append_cons h, hpush, append, append, hflush, hnone]

end Layout

namespace Writer

variable {w : Writer}

/-- A reference that is not known is written as it is. -/
theorem compose_kept {token : List Char} (h : Reference.resolve? w.latin1 token = none)
    (items : List Item) :
    w.compose (.reference token :: items) =
      { w with layout := w.layout.append (String.ofList token) }.compose items := by
  have hwrite : w.write (.reference token) =
      (none, { w with layout := w.layout.append (String.ofList token) }.report
        (.unresolvedReference (String.ofList token))) := by
    rw [write, writeReference, h]
  have hahead : Ahead ""
      ({ w with layout := w.layout.append (String.ofList token) }.report
        (.unresolvedReference (String.ofList token)))
      { w with layout := w.layout.append (String.ofList token) } :=
    .of_same (layout_report ..) (link_report ..) (by unfold report; split <;> rfl)
      (latin1_report ..)
  rw [compose_of_none hwrite, compose_of_ahead hahead, Passage.prepend_empty]

end Writer

/-! ### Reading behind a `&` -/

/-- A character other than `<` and `&` is read as itself. -/
theorem itemsOf_plain {whole : Bool} {c : Char} {cs : List Char} (hlt : c ≠ '<') (hamp : c ≠ '&')
    (hcr : c = '\r' → cs.head? ≠ some '\n') :
    itemsOf whole (c :: cs) = .plain c :: itemsOf whole cs := by
  rw [itemsOf_of_head (Head.of?_plain hlt hamp hcr), Item.plain]
  split <;> rfl

/-- A character that is no blank is written as itself. -/
theorem compose_itemsOf_char {c : Char} {cs : List Char} (hlt : c ≠ '<') (hamp : c ≠ '&')
    (hc : isBodyBlank c = false) (w : Writer) :
    w.compose (itemsOf false (c :: cs)) =
      { w with layout := w.layout.push c }.compose (itemsOf false cs) := by
  have hcr : c = '\r' → cs.head? ≠ some '\n' := by
    rintro rfl
    cases hc
  have hplain : Item.plain c = .char c := by
    rw [Item.plain, hc]
    rfl
  rw [itemsOf_plain hlt hamp hcr, hplain]
  exact Writer.compose_of_none rfl _

/-- A space becomes pending. -/
theorem compose_itemsOf_space {w : Writer} (hpre : w.layout.preformatted = false)
    (cs : List Char) :
    w.compose (itemsOf false (' ' :: cs)) =
      { w with layout := w.layout.blank }.compose (itemsOf false cs) := by
  rw [itemsOf_plain (by decide) (by decide) (by simp)]
  exact Writer.compose_of_none (Writer.write_blank hpre ' ') _

/-- A `&` where a reference is found. -/
theorem itemsOf_reference {token rest : List Char} (htoken : Reference.IsToken ('&' :: token))
    (hline : '\n' ∉ token) :
    itemsOf false ('&' :: (token ++ rest)) =
      .reference ('&' :: token) :: itemsOf false rest := by
  have hhead : Head.of? ('&' :: (token ++ rest)) = some (.ampersand (token ++ rest)) := rfl
  have hfound := htoken.token?_window (by simpa using hline) rest
  rw [List.cons_append] at hfound
  rw [itemsOf_of_head hhead, scanItem, hfound]
  simp only [← List.cons_append, List.drop_left]

theorem StandsAsIs.ne_nil {cs : List Char} (h : StandsAsIs cs) : cs ≠ [] := by
  cases h <;> exact List.cons_ne_nil _ _

/-- **What stands as it is, is read as it is.** -/
theorem StandsAsIs.compose_eq {cs : List Char} (h : StandsAsIs cs)
    (htoken : Reference.IsToken cs) (hline : '\n' ∉ cs) (more : List Char) {w : Writer}
    (hlatin1 : w.latin1 = false) (hpre : w.layout.preformatted = false)
    (hstart : w.layout.atLineStart = false)
    (hspace : w.layout.spacePending = true → cs.head? ≠ some ' ') :
    w.compose (itemsOf false (cs ++ more)) =
      { w with layout := w.layout.append (String.ofList cs) }.compose (itemsOf false more) := by
  -- by induction on how the text is made up; a pending space is written by what comes next
  induction h generalizing w with
  | last =>
    rw [List.cons_append, compose_itemsOf_char (by decide) (by decide) rfl, Layout.append,
      String.toList_ofList]
    rfl
  | @ampersand cs hnone =>
    rw [List.cons_append, itemsOf_reference htoken fun hmem => hline (List.mem_cons_of_mem _ hmem),
      Writer.compose_kept (hlatin1 ▸ hnone)]
  | @char c cs hlt hamp hc hcs ih =>
    obtain ⟨hnewline, hline⟩ := not_or.1 (mt List.mem_cons.2 hline)
    have hnone := Layout.spacePending_push hpre c
    rw [List.cons_append, compose_itemsOf_char hlt hamp hc, Layout.append_cons hpre]
    exact ih (htoken.of_cons hcs.ne_nil) hline hlatin1 ((Layout.preformatted_push ..).trans hpre)
      (Layout.atLineStart_push (Ne.symm hnewline))
      fun hpending => absurd (hnone.symm.trans hpending) Bool.false_ne_true
  | @space c cs hc hcs ih =>
    have hnone : w.layout.spacePending = false := Bool.of_not_eq_true fun hpending =>
      hspace hpending rfl
    have hstart' : w.layout.blank.atLineStart = false := by
      rw [Layout.blank]
      split <;> exact hstart
    rw [List.cons_append, compose_itemsOf_space hpre, Layout.append_space hpre hstart hnone]
    refine ih (htoken.of_cons hcs.ne_nil) (not_or.1 (mt List.mem_cons.2 hline)).2 hlatin1
      ((Layout.preformatted_blank _).trans hpre) hstart' fun _ hhead => ?_
    cases hhead
    cases hc

/-- An escaped `&` is written as itself. -/
theorem compose_escaped (w : Writer) (rest : List Char) :
    w.compose (itemsOf false (escapeChar '&' ++ rest)) =
      { w with layout := w.layout.push '&' }.compose (itemsOf false rest) := by
  have htoken : Reference.IsToken ('&' :: ['a', 'm', 'p', ';']) := rfl
  have hitems : itemsOf false (escapeChar '&' ++ rest) =
      .reference (escapeChar '&') :: itemsOf false rest := itemsOf_reference htoken (by decide)
  rw [hitems]
  exact Writer.compose_of_none (Glyph.write_char w '&') _

/-- **A `&` that does not disturb what follows it** is as good as an escaped one. -/
theorem Undisturbed.compose_eq {rest : List Char} (h : Undisturbed rest) {w : Writer}
    (hlatin1 : w.latin1 = false) (hpre : w.layout.preformatted = false) :
    w.compose (itemsOf false ('&' :: rest)) =
      w.compose (itemsOf false (escapeChar '&' ++ rest)) := by
  rw [compose_escaped]
  cases hfound : Reference.token? (window false ('&' :: rest)) with
  | none =>
    have hhead : Head.of? ('&' :: rest) = some (.ampersand rest) := rfl
    rw [itemsOf_of_head hhead, scanItem, hfound]
    rfl
  | some parts =>
    obtain ⟨found, after⟩ := parts
    obtain ⟨htoken, hline, more, htext⟩ := Reference.exists_of_token?_window hfound
    obtain ⟨c, token, rfl⟩ := List.exists_cons_of_ne_nil
      (Reference.eq_append_of_tokenWithin? hfound).1
    obtain ⟨rfl, rfl⟩ := List.cons.inj htext
    obtain ⟨hresolve, hstands⟩ := h token after hfound
    have hno : '\n' ∉ token := fun hmem => hline (List.mem_cons_of_mem _ hmem)
    have hpending := Layout.spacePending_push hpre '&'
    have hread := hstands.compose_eq (htoken.of_cons hstands.ne_nil) hno more
      (w := { w with layout := w.layout.push '&' }) hlatin1
      ((Layout.preformatted_push ..).trans hpre) (Layout.atLineStart_push (by decide))
      fun htrue => absurd (hpending.symm.trans htrue) Bool.false_ne_true
    rw [List.append_eq, itemsOf_reference htoken hno, Writer.compose_kept (hlatin1 ▸ hresolve),
      Layout.append_cons hpre]
    exact hread.symm

/-! ### Bodies with a bare `&` -/

section

variable {stream stream' : Stream} {plain rest : List Char} {config : Config}

/-- A body whose lines fit shows the plain text that it starts with, and what one pass over the rest
comes to. -/
theorem plainText_append (hstream : stream.Unbroken)
    (hbytes : stream.bytes = Utf8.encode (plain ++ rest)) (hplain : IsPlain plain)
    (hlimit : 4 ≤ config.lineLimit) (hfits : Fits config.lineLimit (plain ++ rest)) :
    plainText stream .utf8 config =
      .ok (Passage.joined ((config.writer.writePlain plain).compose (itemsOf false rest))) := by
  have hmarks := (areLines_pieces hlimit hfits).keepsMarks.append plain
  rw [plainText_encode hstream hbytes hlimit, compose_plain hlimit hplain hmarks rfl]

/-- **A bare `&` shows what `&amp;` shows**, and what follows it shows the same, as long as that is
undisturbed: however the bytes of the two bodies arrive, when each line of them fits. -/
theorem plainText_ampersand (hstream : stream.Unbroken) (hstream' : stream'.Unbroken)
    (hbytes : stream.bytes = Utf8.encode (plain ++ '&' :: rest))
    (hbytes' : stream'.bytes = Utf8.encode (plain ++ (escapeChar '&' ++ rest)))
    (hfits : Fits config.lineLimit (plain ++ '&' :: rest))
    (hfits' : Fits config.lineLimit (plain ++ (escapeChar '&' ++ rest)))
    (hplain : IsPlain plain) (hrest : Undisturbed rest) :
    ∃ shown, plainText stream .utf8 config = .ok shown ∧
      plainText stream' .utf8 config = .ok shown := by
  have hlimit : 4 ≤ config.lineLimit := by
    have hline : LineText (escapeChar '&') := lineText_of_not_mem (by decide)
    have hroom := hfits' _ ⟨plain, rest, List.append_assoc ..⟩ hline
    rw [show byteLength (escapeChar '&') = 5 from rfl] at hroom
    omega
  have hlatin1 : (config.writer.writePlain plain).latin1 = false := Writer.latin1_writePlain ..
  refine ⟨_, plainText_append hstream hbytes hplain hlimit hfits, ?_⟩
  rw [plainText_append hstream' hbytes' hplain hlimit hfits',
    hrest.compose_eq hlatin1 (Writer.preformatted_writePlain rfl plain)]

end

/-- A body with a bare `&`, in segments. -/
def spacedBody : Stream :=
  [.segment [0x61, 0x26], .interrupted, .segment [0x20, 0x62, 0x3B, 0x09, 0x26],
    .segment [0x6C, 0x74, 0x3B]]

/-- What follows the `&` in it: a `;` close by, then a reference. -/
def spacedRest : List Char := [' ', 'b', ';', '\t', '&', 'l', 't', ';']

/-- A `&` that is taken for a reference with what follows, and is kept as it is. -/
theorem plainText_ampersand_spaced :
    (spacedBody.Unbroken ∧ spacedBody.bytes = Utf8.encode (['a'] ++ '&' :: spacedRest) ∧
      IsPlain ['a'] ∧ Undisturbed spacedRest) ∧
    plainTextOf { lineLimit := 16 } (['a'] ++ (escapeChar '&' ++ spacedRest)) =
      .ok "a& b; <" := by
  have hstream : spacedBody.Unbroken := trivial
  have hbytes : spacedBody.bytes = Utf8.encode (['a'] ++ '&' :: spacedRest) := by decide
  have hplain : IsPlain ['a'] := by simp [IsPlain]
  have hrest : Undisturbed spacedRest := by
    intro token more htoken
    have hfound : Reference.token? (window false ('&' :: spacedRest)) =
        some (['&', ' ', 'b', ';'], ['\t', '&', 'l', 't', ';']) := by decide
    cases hfound.symm.trans htoken
    exact ⟨by decide, .space rfl (.char (by decide) (by decide) rfl .last)⟩
  obtain ⟨shown, hshown, hshown'⟩ : ∃ shown,
      plainText spacedBody .utf8 { lineLimit := 16 } = .ok shown ∧
      plainTextOf { lineLimit := 16 } (['a'] ++ (escapeChar '&' ++ spacedRest)) = .ok shown :=
    plainText_ampersand hstream (Stream.steady_segment _).unbroken hbytes (List.append_nil _)
      (fits_of_byteLength_le (by decide)) (fits_of_byteLength_le (by decide)) hplain hrest
  have hbare : plainText spacedBody .utf8 { lineLimit := 16 } = .ok "a& b; <" := by cbv
  exact ⟨⟨hstream, hbytes, hplain, hrest⟩, hshown'.trans (hshown.symm.trans hbare)⟩

/-- A text that starts with the name or the number of a reference, with the `;` behind it. -/
def StartsReference (rest : List Char) : Prop :=
  ∃ name more, name ≠ [] ∧ (∀ c ∈ name, c.isAlphanum = true) ∧
    (rest = name ++ ';' :: more ∨ rest = '#' :: (name ++ ';' :: more))

/-- A reference directly behind a bare `&` is kept, and not resolved as it is behind `&amp;`. -/
theorem plainTextOf_ampersand_reference :
    IsPlain [] ∧ ¬ StartsReference ['&', 'l', 't', ';'] ∧
      Fits ({} : Config).lineLimit ([] ++ '&' :: ['&', 'l', 't', ';']) ∧
      Fits ({} : Config).lineLimit ([] ++ (escapeChar '&' ++ ['&', 'l', 't', ';'])) ∧
      plainTextOf {} ([] ++ '&' :: ['&', 'l', 't', ';']) = .ok "&&lt;" ∧
      plainTextOf {} ([] ++ (escapeChar '&' ++ ['&', 'l', 't', ';'])) = .ok "&<" := by
  refine ⟨by simp [IsPlain], ?_, fits_of_byteLength_le (by decide),
    fits_of_byteLength_le (by decide), by cbv, by cbv⟩
  rintro ⟨name, more, hne, hname, hrest⟩
  obtain ⟨c, name, rfl⟩ := List.exists_cons_of_ne_nil hne
  have hc := hname c List.mem_cons_self
  rcases hrest with hrest | hrest
  · cases (List.cons.inj hrest).1
    cases hc
  · exact absurd (List.cons.inj hrest).1 (by decide)

end BodyText
