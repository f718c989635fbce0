import BodyText.Proofs.Escaping
import BodyText.Proofs.SkippedBlocks

/-!
# Preformatted text

A text that stands escaped between `<pre>` and `</pre>` (`preformatted`) is shown as it is, every
blank of it, wherever the limit cuts it (`plainText_preformatted`). Only a CR LF is one line end, and
is shown as a LF. It has to be at hand as a whole to be told: what is shown is the text with the line
ends folded in each piece of the body on its own, and so a CR LF that the limit cuts is shown with
its CR (`plainText_preformatted_eq_iff`).
-/

namespace BodyText

/-! ### Line ends -/

/-- A text with every CR LF replaced by a LF. -/
def foldBreaks : List Char → List Char
  | [] => []
  | '\r' :: '\n' :: cs => '\n' :: foldBreaks cs
  | c :: cs => c :: foldBreaks cs

/-- A CR LF stands across the end of the first text. -/
def PartsBreak (xs ys : List Char) : Prop := xs.getLast? = some '\r' ∧ ys.head? = some '\n'

theorem not_partsBreak_of_not_mem {xs : List Char} (h : '\r' ∉ xs) (ys : List Char) :
    ¬ PartsBreak xs ys := by
  intro hparts
  exact h (List.mem_of_getLast? hparts.1)

theorem PartsBreak.append {xs ys : List Char} (h : PartsBreak xs ys) (before : List Char) :
    PartsBreak (before ++ xs) ys := by
  constructor
  · simp [List.getLast?_append, h.1]
  · exact h.2

theorem foldBreaks_cons {c : Char} {cs : List Char} (h : c = '\r' → cs.head? ≠ some '\n') :
    foldBreaks (c :: cs) = c :: foldBreaks cs := by
  rw [foldBreaks.eq_def]
  split
  · rename_i hnil
    cases hnil
  · rename_i hcons
    obtain ⟨rfl, rfl⟩ := List.cons.inj hcons
    exact absurd rfl (h rfl)
  · rename_i hcons
    obtain ⟨rfl, rfl⟩ := List.cons.inj hcons
    rfl

theorem foldBreaks_of_not_mem {cs : List Char} (h : '\r' ∉ cs) : foldBreaks cs = cs := by
  induction cs with
  | nil => rfl
  | cons c cs ih =>
    rw [List.mem_cons, not_or] at h
    rw [foldBreaks_cons fun hc => absurd hc.symm h.1, ih h.2]

/-- Where no line end stands across the two, texts are folded on their own. -/
theorem foldBreaks_append {xs ys : List Char} (h : ¬ PartsBreak xs ys) :
    foldBreaks (xs ++ ys) = foldBreaks xs ++ foldBreaks ys := by
  fun_induction foldBreaks xs with
  | case1 => rfl
  | case2 cs ih =>
    have hcs : ¬ PartsBreak cs ys := fun hparts => h (hparts.append ['\r', '\n'])
    rw [List.cons_append, List.cons_append, foldBreaks, ih hcs, List.cons_append]
  | case3 c cs hnot ih =>
    have hcs : ¬ PartsBreak cs ys := fun hparts => h (hparts.append [c])
    rw [List.cons_append, foldBreaks_cons, ih hcs, List.cons_append]
    rintro rfl hhead
    cases cs with
    | nil => exact h ⟨rfl, hhead⟩
    | cons d cs =>
      obtain rfl : d = '\n' := Option.some.inj hhead
      exact hnot cs rfl rfl

/-- A line end that stands across two texts is not folded in either. -/
theorem length_foldBreaks_append_lt {xs ys : List Char} (h : PartsBreak xs ys) :
    (foldBreaks (xs ++ ys)).length < (foldBreaks xs).length + (foldBreaks ys).length := by
  obtain ⟨zs, rfl⟩ := List.getLast?_eq_some_iff.1 h.1
  obtain ⟨ws, rfl⟩ := List.head?_eq_some_iff.1 h.2
  have hzs : ∀ more, ¬ PartsBreak zs ('\r' :: more) := by
    intro more hparts
    simp [PartsBreak] at hparts
  rw [List.append_assoc, List.singleton_append, foldBreaks_append (hzs _),
    foldBreaks_append (hzs []), foldBreaks, foldBreaks_cons (by simp), foldBreaks_cons (by simp)]
  simp only [List.length_append, List.length_cons]
  omega

theorem length_foldBreaks_le (cs : List Char) : (foldBreaks cs).length ≤ cs.length := by
  fun_induction foldBreaks cs with
  | case1 => exact Nat.le_refl _
  | case2 cs ih =>
    simp only [List.length_cons]
    omega
  | case3 c cs hnot ih =>
    simp only [List.length_cons]
    omega

/-- A text is left as it is exactly when it has no CR LF. -/
theorem foldBreaks_eq_self_iff {cs : List Char} :
    foldBreaks cs = cs ↔ ¬ ['\r', '\n'] <:+: cs := by
  constructor
  · rintro hself ⟨xs, ys, rfl⟩
    have hparts : PartsBreak (xs ++ ['\r']) ('\n' :: ys) := ⟨List.getLast?_concat, rfl⟩
    have hlt := length_foldBreaks_append_lt hparts
    have hboth : xs ++ ['\r'] ++ '\n' :: ys = xs ++ ['\r', '\n'] ++ ys := by simp
    have hxs := length_foldBreaks_le (xs ++ ['\r'])
    have hys := length_foldBreaks_le ('\n' :: ys)
    rw [hboth, hself, ← hboth, List.length_append] at hlt
    omega
  · intro h
    induction cs with
    | nil => rfl
    | cons c cs ih =>
      have hcs : ¬ ['\r', '\n'] <:+: cs := by
        intro hfound
        exact h (hfound.trans (List.suffix_cons c cs).isInfix)
      rw [foldBreaks_cons, ih hcs]
      rintro rfl hhead
      obtain ⟨cs, rfl⟩ := List.head?_eq_some_iff.1 hhead
      exact h ⟨[], cs, rfl⟩

theorem length_foldBreaks_flatten_le (parts : List (List Char)) :
    (foldBreaks parts.flatten).length ≤ (parts.flatMap foldBreaks).length := by
  induction parts with
  | nil => exact Nat.le_refl _
  | cons part parts ih =>
    rw [List.flatten_cons, List.flatMap_cons, List.length_append]
    by_cases hparts : PartsBreak part parts.flatten
    · have hlt := length_foldBreaks_append_lt hparts
      omega
    · rw [foldBreaks_append hparts, List.length_append]
      omega

/-- **Folding part by part is folding the whole** exactly when no line end stands across two
parts. -/
theorem flatMap_foldBreaks_eq_iff (parts : List (List Char)) :
    parts.flatMap foldBreaks = foldBreaks parts.flatten ↔
      ∀ first later, parts = first ++ later → ¬ PartsBreak first.flatten later.flatten := by
  constructor
  · rintro hsame first later rfl hparts
    have hlen := congrArg List.length hsame
    have hlt := length_foldBreaks_append_lt hparts
    have hfirst := length_foldBreaks_flatten_le first
    have hlater := length_foldBreaks_flatten_le later
    rw [List.flatMap_append, List.flatten_append, List.length_append] at hlen
    omega
  · intro h
    induction parts with
    | nil => rfl
    | cons part parts ih =>
      have hpart : ¬ PartsBreak part parts.flatten := by
        have hfirst := h [part] parts rfl
        rwa [List.flatten_singleton] at hfirst
      rw [List.flatMap_cons, List.flatten_cons, foldBreaks_append hpart, ih]
      rintro first later rfl hparts
      refine h (part :: first) later rfl ?_
      rw [List.flatten_cons]
      exact hparts.append part

/-- The limit cuts a CR LF of a body. -/
def CutsBreak (limit : Nat) (body : List Char) : Prop :=
  ∃ xs ys, body = xs ++ '\r' :: '\n' :: ys ∧ Cut limit (xs ++ ['\r']) ('\n' :: ys)

theorem CutsBreak.isInfix {limit : Nat} {body : List Char} (h : CutsBreak limit body) :
    ['\r', '\n'] <:+: body := by
  obtain ⟨xs, ys, rfl, -⟩ := h
  exact ⟨xs, ys, List.append_assoc ..⟩

/-- The line ends of a body are folded in its pieces exactly when the limit cuts none of them. -/
theorem flatMap_pieces_eq_iff {limit : Nat} (hlimit : 4 ≤ limit) (body : List Char) :
    (pieces limit body).flatMap foldBreaks = foldBreaks body ↔ ¬ CutsBreak limit body := by
  have hflat := flatten_pieces hlimit body
  have hparts := flatMap_foldBreaks_eq_iff (pieces limit body)
  rw [hflat] at hparts
  rw [hparts]
  constructor
  · rintro h ⟨xs, ys, hbody, first, later, hpieces, hfirst⟩
    have hboth : xs ++ ['\r'] ++ '\n' :: ys = body := by simp [hbody]
    rw [hboth] at hpieces
    have hlater : later.flatten = '\n' :: ys := by
      rw [hpieces, List.flatten_append, hfirst, ← hboth] at hflat
      exact List.append_cancel_left hflat
    refine h first later hpieces ?_
    rw [hfirst, hlater]
    exact ⟨List.getLast?_concat, rfl⟩
  · rintro h first later hpieces ⟨hlast, hhead⟩
    obtain ⟨xs, hxs⟩ := List.getLast?_eq_some_iff.1 hlast
    obtain ⟨ys, hys⟩ := List.head?_eq_some_iff.1 hhead
    have hbody : body = xs ++ ['\r'] ++ '\n' :: ys := by
      rw [← hflat, hpieces, List.flatten_append, hxs, hys]
    refine h ⟨xs, ys, ?_, first, later, ?_, hxs⟩
    · simp [hbody]
    · rw [← hbody, hpieces]

/-! ### Escaped line ends -/

theorem head?_escape {text : List Char} :
    (escape text).head? = some '\n' ↔ text.head? = some '\n' := by
  cases text with
  | nil => exact Iff.rfl
  | cons c cs =>
    rw [escape, List.flatMap_cons, escapeChar]
    split_ifs with hamp hlt
    · simp [hamp]
    · simp [hlt]
    · rfl

theorem not_mem_escapeChar {c : Char} (h : c ≠ '\r') : '\r' ∉ escapeChar c := by
  rw [escapeChar]
  split_ifs
  · decide
  · decide
  · simpa using Ne.symm h

/-- Line ends are written as themselves. -/
theorem foldBreaks_escape (text : List Char) :
    foldBreaks (escape text) = escape (foldBreaks text) := by
  fun_induction foldBreaks text with
  | case1 => rfl
  | case2 cs ih => exact congrArg ('\n' :: ·) ih
  | case3 c cs hnot ih =>
    rw [escape, escape, List.flatMap_cons, List.flatMap_cons, foldBreaks_append,
      show foldBreaks (escapeChar c) = escapeChar c from ?_]
    · exact congrArg (escapeChar c ++ ·) ih
    · by_cases hc : c = '\r'
      · rw [hc]
        rfl
      · exact foldBreaks_of_not_mem (not_mem_escapeChar hc)
    · rintro ⟨hlast, hhead⟩
      have hc : c = '\r' := by
        by_contra hc
        exact not_mem_escapeChar hc (List.mem_of_getLast? hlast)
      obtain ⟨cs, rfl⟩ := List.head?_eq_some_iff.1 (head?_escape.1 hhead)
      exact hnot cs hc rfl

theorem escapeChar_append_inj {c d : Char} {xs ys : List Char}
    (h : escapeChar c ++ xs = escapeChar d ++ ys) : c = d ∧ xs = ys := by
  unfold escapeChar at h
  split_ifs at h <;> grind

/-- A text whose written form starts with a line end starts with it itself. -/
theorem exists_of_escape_append {text rest more : List Char} (hrest : rest.head? ≠ some '\n')
    (h : escape text ++ rest = '\n' :: more) :
    ∃ cs, text = '\n' :: cs ∧ more = escape cs ++ rest := by
  cases text with
  | nil =>
    have hnil : rest = '\n' :: more := h
    simp [hnil] at hrest
  | cons c cs =>
    rw [escape, List.flatMap_cons, List.append_assoc] at h
    have hboth : escapeChar c ++ (List.flatMap escapeChar cs ++ rest) = escapeChar '\n' ++ more := h
    obtain ⟨rfl, hmore⟩ := escapeChar_append_inj hboth
    exact ⟨cs, rfl, hmore.symm⟩

/-- A text is told by how it is written. -/
theorem escape_injective : Function.Injective escape := by
  intro text text' h
  induction text generalizing text' with
  | nil =>
    cases text' with
    | nil => rfl
    | cons d ds =>
      exact absurd (List.append_eq_nil_iff.1 h.symm).1 (Glyph.char d).written_ne_nil
  | cons c cs ih =>
    cases text' with
    | nil => exact absurd (List.append_eq_nil_iff.1 h).1 (Glyph.char c).written_ne_nil
    | cons d ds =>
      obtain ⟨rfl, hrest⟩ := escapeChar_append_inj h
      rw [ih hrest]

/-! ### Reading with line ends folded -/

namespace Supply

/-- The text of a supply with the line ends folded in each part on its own. -/
def folded (s : Supply) : List Char := foldBreaks s.atHand ++ s.later.flatMap foldBreaks

theorem folded_of_text_nil {s : Supply} (h : s.text = []) : s.folded = [] := by
  obtain ⟨hatHand, hlater⟩ := List.append_eq_nil_iff.1 h
  rw [folded, hatHand, foldBreaks, List.nil_append, List.flatMap_eq_nil_iff]
  intro part hpart
  rw [List.flatten_eq_nil_iff.1 hlater part hpart]
  rfl

/-- What is read without a CR is not folded. -/
theorem Within.folded_eq {s s' : Supply} (h : s.Within s') {taken : List Char}
    (htext : s.text = taken ++ s'.text) (hcr : '\r' ∉ taken) : s.folded = taken ++ s'.folded := by
  obtain ⟨parts, part, hparts, before, rfl⟩ := h
  have hall : s.text = (s.atHand :: s.later).flatten := rfl
  have htaken : taken = parts.flatten ++ before := by
    rw [hall, hparts, List.flatten_append, List.flatten_cons, text] at htext
    simp only [← List.append_assoc] at htext
    exact (List.append_cancel_right (List.append_cancel_right htext)).symm
  rw [htaken, List.mem_append, not_or] at hcr
  have hfolded : parts.flatMap foldBreaks = parts.flatten := by
    rw [(flatMap_foldBreaks_eq_iff parts).2, foldBreaks_of_not_mem hcr.1]
    rintro first later rfl hbreak
    apply hcr.1
    rw [List.flatten_append]
    exact List.mem_append_left _ (List.mem_of_getLast? hbreak.1)
  calc
    s.folded = (s.atHand :: s.later).flatMap foldBreaks := rfl
    _ = parts.flatten ++ (foldBreaks (before ++ s'.atHand) ++ s'.later.flatMap foldBreaks) := by
      rw [hparts, List.flatMap_append, List.flatMap_cons, hfolded]
    _ = taken ++ s'.folded := by
      rw [foldBreaks_append (not_partsBreak_of_not_mem hcr.2 _), foldBreaks_of_not_mem hcr.2,
        htaken, folded]
      simp only [List.append_assoc]

variable {s : Supply} {rest : List Char}

/-- Reading a tag that opens no block. -/
theorem exists_read_tag_folded {tag : List Char} (h : s.Lined false) (hg : (Glyph.tag tag).Told)
    (hcr : '\r' ∉ (Glyph.tag tag).written) (htext : s.text = (Glyph.tag tag).written ++ rest) :
    ∃ s' : Supply, s.items = .tag tag :: s'.items ∧ s'.text = rest ∧ s'.Lined false ∧
      s.folded = (Glyph.tag tag).written ++ s'.folded := by
  obtain ⟨s₁, hwithin, htext₁, hitems₁, hne⟩ := exists_atHand (.refl s)
    (by rw [htext]; exact List.append_ne_nil_of_left_ne_nil (Glyph.written_ne_nil _) _)
  obtain ⟨s', hitems, hs', hwithin'⟩ :=
    exists_read_told (hwithin.lined h) hne hg (htext₁.trans htext)
  have hboth := hwithin.trans hwithin'
  exact ⟨s', hitems₁.symm.trans hitems, hs', hboth.lined h,
    hboth.folded_eq (by rw [htext, hs']) hcr⟩

/-- Reading a character as it is written: it is read as itself, or a CR with the LF behind it, which
stand in the same part, as one line end. -/
theorem exists_read_char_folded {c : Char} (h : s.Lined false)
    (htext : s.text = escapeChar c ++ rest) :
    ∃ s' : Supply, s'.Lined false ∧
      (s.items = (Glyph.char c).item :: s'.items ∧ s'.text = rest ∧
          s.folded = escapeChar c ++ s'.folded ∨
        c = '\r' ∧ rest = '\n' :: s'.text ∧ s.items = (Glyph.char '\n').item :: s'.items ∧
          s.folded = '\n' :: s'.folded) := by
  obtain ⟨s₁, hwithin, htext₁, hitems₁, hne⟩ := exists_atHand (.refl s)
    (by rw [htext]; exact List.append_ne_nil_of_left_ne_nil (Glyph.char c).written_ne_nil _)
  have hlined := hwithin.lined h
  have hfolded : s.folded = s₁.folded := hwithin.folded_eq htext₁.symm List.not_mem_nil
  rw [htext] at htext₁
  rw [← hitems₁, hfolded]
  by_cases hc : c = '&' ∨ c = '<'
  · obtain ⟨s', hitems, hs', hwithin'⟩ := exists_read_escaped hlined hne hc htext₁
    have hcr : '\r' ∉ escapeChar c := not_mem_escapeChar (by rcases hc with rfl | rfl <;> decide)
    rw [Glyph.item, if_pos hc]
    exact ⟨s', hwithin'.lined hlined, .inl ⟨hitems, hs',
      hwithin'.folded_eq (by rw [htext₁, hs']) hcr⟩⟩
  · obtain ⟨hamp, hlt⟩ := not_or.1 hc
    have hwritten : escapeChar c = [c] := Glyph.written_char hamp hlt
    rw [hwritten]
    rw [hwritten, List.singleton_append] at htext₁
    obtain ⟨d, ds, hatHand⟩ := List.exists_cons_of_ne_nil hne
    have hboth : d :: (ds ++ s₁.later.flatten) = c :: rest := by
      rw [← List.cons_append, ← hatHand, ← htext₁, text]
    obtain ⟨rfl, rfl⟩ := List.cons.inj hboth
    by_cases hcrlf : d = '\r' ∧ ds.head? = some '\n'
    · obtain ⟨rfl, hhead⟩ := hcrlf
      obtain ⟨es, rfl⟩ := List.head?_eq_some_iff.1 hhead
      refine ⟨⟨es, s₁.later⟩, hlined.of_suffix (hatHand ▸ ⟨['\r', '\n'], rfl⟩), .inr ⟨rfl, rfl,
        items_of_crlf hatHand, ?_⟩⟩
      rw [folded, hatHand]
      rfl
    · have hcr : d = '\r' → ds.head? ≠ some '\n' := by
        intro hd hhead
        exact hcrlf ⟨hd, hhead⟩
      rw [Glyph.item, if_neg hc]
      refine ⟨⟨ds, s₁.later⟩, hlined.of_suffix (hatHand ▸ ⟨[d], rfl⟩), .inl
        ⟨items_of_plain hatHand hlt hamp hcr, rfl, ?_⟩⟩
      rw [folded, hatHand, foldBreaks_cons hcr]
      rfl

/-- Reading an escaped text: the items are those of the text with the line ends folded in each
part. -/
theorem exists_read_escape {text : List Char} (h : s.Lined false)
    (htext : s.text = escape text ++ rest) (hrest : rest.head? ≠ some '\n') :
    ∃ (shown : List Char) (s' : Supply),
      s.items = (shown.map Glyph.char).map Glyph.item ++ s'.items ∧ s'.text = rest ∧
        s'.Lined false ∧ s.folded = escape shown ++ s'.folded := by
  -- by induction on the number of characters, as a CR LF takes two of them
  induction hlen : text.length using Nat.strongRecOn generalizing text s with
  | ind n ih =>
    cases text with
    | nil => exact ⟨[], s, rfl, htext, h, rfl⟩
    | cons c cs =>
      rw [List.length_cons] at hlen
      rw [escape, List.flatMap_cons, List.append_assoc] at htext
      obtain ⟨s₁, hlined, ⟨hitems, hs₁, hfolded⟩ | ⟨rfl, hcs, hitems, hfolded⟩⟩ :=
        exists_read_char_folded h htext
      · obtain ⟨shown, s', hitems', hs', hlined', hfolded'⟩ :=
          ih cs.length (by omega) hlined hs₁ rfl
        refine ⟨c :: shown, s', by rw [hitems, hitems']; rfl, hs', hlined', ?_⟩
        rw [hfolded, hfolded', ← List.append_assoc]
        rfl
      · -- the LF is the next character of the text
        obtain ⟨cs, rfl, hs₁⟩ := exists_of_escape_append hrest hcs
        rw [List.length_cons] at hlen
        obtain ⟨shown, s', hitems', hs', hlined', hfolded'⟩ :=
          ih cs.length (by omega) hlined hs₁ rfl
        refine ⟨'\n' :: shown, s', by rw [hitems, hitems']; rfl, hs', hlined', ?_⟩
        rw [hfolded, hfolded']
        rfl

end Supply

/-! ### Writing preformatted text -/

namespace Layout

/-- In preformatted text nothing goes out before a character. -/
theorem push_of_preformatted {l : Layout} (h : l.preformatted = true) (c : Char) :
    l.push c = l.emit c := by
  rw [push, flush, h]
  simp

end Layout

namespace Writer

variable {w : Writer}

theorem write_plain_of_preformatted (hw : w.layout.preformatted = true) (c : Char) :
    (w.write (.plain c)).2 = { w with layout := w.layout.emit c } := by
  unfold Item.plain
  split
  · rw [write, writeBlank, if_pos hw, Layout.push_of_preformatted hw]
  · rw [write, Layout.push_of_preformatted hw]

theorem writePlain_of_preformatted (hw : w.layout.preformatted = true) (text : List Char) :
    w.writePlain text = { w with layout := text.foldl Layout.emit w.layout } := by
  induction text generalizing w with
  | nil => rfl
  | cons c text ih =>
    rw [writePlain, List.foldl_cons, write_plain_of_preformatted hw c]
    exact ih ((Layout.preformatted_emit ..).trans hw)

/-- **Preformatted text is written as it is.** -/
theorem text_writePlain_of_preformatted (hw : w.layout.preformatted = true) (text : List Char) :
    (w.writePlain text).layout.text = w.layout.text ++ String.ofList text := by
  rw [writePlain_of_preformatted hw, Layout.text_foldl_emit]

end Writer

/-- The text of the tag `<pre>` that starts preformatted text. -/
def preTag : List Char := ['p', 'r', 'e']

/-- The text of the tag `</pre>` that ends it. -/
def preEnd : List Char := ['/', 'p', 'r', 'e']

/-- A body that holds a text as preformatted text. -/
def preformatted (text : List Char) : List Char :=
  ['<', 'p', 'r', 'e', '>'] ++ escape text ++ ['<', '/', 'p', 'r', 'e', '>']

theorem told_preTag : (Glyph.tag preTag).Told := ⟨by decide, fun _ => rfl⟩

theorem told_preEnd : (Glyph.tag preEnd).Told := ⟨by decide, fun _ => rfl⟩

theorem Writer.write_preTag (w : Writer) :
    w.write (.tag preTag) = (none, w.edit .preformatted (·.setPreformatted true)) := by
  have hread : Tag.read preTag = .complete ⟨"pre", []⟩ := by cbv
  rw [write, hread]
  rfl

theorem Writer.write_preEnd (w : Writer) :
    w.write (.tag preEnd) = (none, w.edit .normal (·.setPreformatted false)) := by
  have hread : Tag.read preEnd = .complete ⟨"/pre", []⟩ := by cbv
  rw [write, hread]
  rfl

theorem preformatted_injective : Function.Injective preformatted := by
  intro text text' h
  exact escape_injective (List.append_cancel_left (List.append_cancel_right h))

theorem foldBreaks_preformatted (text : List Char) :
    foldBreaks (preformatted text) = preformatted (foldBreaks text) := by
  have hend : ¬ PartsBreak (escape text) ['<', '/', 'p', 'r', 'e', '>'] := by
    simp [PartsBreak]
  have hstart : ¬ PartsBreak ['<', 'p', 'r', 'e', '>']
      (escape text ++ ['<', '/', 'p', 'r', 'e', '>']) :=
    not_partsBreak_of_not_mem (by decide) _
  rw [preformatted, List.append_assoc, foldBreaks_append hstart, foldBreaks_append hend,
    foldBreaks_escape, ← List.append_assoc]
  rfl

/-- What the items of a preformatted text come to. -/
theorem Writer.joined_compose_preformatted {w : Writer} (hw : w.layout.text = "")
    (shown : List Char) :
    Passage.joined (w.compose
      (.tag preTag :: ((shown.map Glyph.char).map Glyph.item ++ [.tag preEnd]))) =
      String.ofList shown := by
  have hwritten := text_writePlain_of_preformatted
    (w := w.edit .preformatted (·.setPreformatted true)) rfl shown
  rw [compose_of_none w.write_preTag, compose_chars, compose_of_none (write_preEnd _), compose,
    Passage.joined_prepend]
  have htext : (w.edit .preformatted (·.setPreformatted true)).layout.text = "" := hw
  rw [htext, String.empty_append] at hwritten
  change ((w.edit .preformatted (·.setPreformatted true)).writePlain shown).layout.text ++ _ = _
  rw [hwritten]
  exact String.append_empty

/-! ### Conversions of preformatted text -/

section

variable {stream : Stream} {text : List Char} {config : Config}

/-- What is shown of a preformatted text: the text with the line ends folded in each piece of the
body. -/
theorem exists_plainText_preformatted (hstream : stream.Unbroken)
    (hbytes : stream.bytes = Utf8.encode (preformatted text)) (hlimit : 4 ≤ config.lineLimit) :
    ∃ shown, plainText stream .utf8 config = .ok (String.ofList shown) ∧
      preformatted shown = (pieces config.lineLimit (preformatted text)).flatMap foldBreaks := by
  have hlined := lined_pieces hlimit (preformatted text)
  have htext := text_pieces hlimit (preformatted text)
  rw [plainText_encode hstream hbytes hlimit]
  have hfolded : (pieces config.lineLimit (preformatted text)).flatMap foldBreaks =
      Supply.folded ⟨[], pieces config.lineLimit (preformatted text)⟩ := rfl
  rw [hfolded]
  generalize Supply.mk [] (pieces config.lineLimit (preformatted text)) = s at hlined htext ⊢
  have hbody : s.text = (Glyph.tag preTag).written ++ (escape text ++ (Glyph.tag preEnd).written) :=
    htext.trans (List.append_assoc ..)
  obtain ⟨s₁, hitems₁, hs₁, hlined₁, hfolded₁⟩ :=
    Supply.exists_read_tag_folded hlined told_preTag (by decide) hbody
  obtain ⟨shown, s₂, hitems₂, hs₂, hlined₂, hfolded₂⟩ :=
    Supply.exists_read_escape hlined₁ hs₁ (by decide)
  obtain ⟨s₃, hitems₃, hs₃, -, hfolded₃⟩ :=
    Supply.exists_read_tag_folded hlined₂ told_preEnd (by decide)
      (hs₂.trans (List.append_nil _).symm)
  refine ⟨shown, ?_, ?_⟩
  · rw [hitems₁, hitems₂, hitems₃, Supply.items_of_text_nil hs₃,
      Writer.joined_compose_preformatted rfl]
  · rw [hfolded₁, hfolded₂, hfolded₃, Supply.folded_of_text_nil hs₃, List.append_nil, preformatted,
      List.append_assoc]
    rfl

/-- **Preformatted text is verbatim.** However the bytes of a body arrive, and wherever a limit with
room for a character cuts them, a text that stands escaped between `<pre>` and `</pre>` is shown as
it is, when it has no CR LF. -/
theorem plainText_preformatted (hstream : stream.Unbroken)
    (hbytes : stream.bytes = Utf8.encode (preformatted text)) (hlimit : 4 ≤ config.lineLimit)
    (hbreaks : ¬ ['\r', '\n'] <:+: text) :
    plainText stream .utf8 config = .ok (String.ofList text) := by
  obtain ⟨shown, hshown, hfolded⟩ := exists_plainText_preformatted hstream hbytes hlimit
  have hself : foldBreaks (preformatted text) = preformatted text := by
    rw [foldBreaks_preformatted, foldBreaks_eq_self_iff.2 hbreaks]
  have hwhole : ¬ CutsBreak config.lineLimit (preformatted text) :=
    fun hcut => foldBreaks_eq_self_iff.1 hself hcut.isInfix
  rw [(flatMap_pieces_eq_iff hlimit _).2 hwhole, hself] at hfolded
  rw [hshown, preformatted_injective hfolded]

/-- A text that starts and ends with blanks, with a CR on its own and characters that are escaped or
take more than one byte, in the smallest pieces. -/
theorem plainText_preformatted_blanks :
    plainText [.segment (Utf8.encode (preformatted
        [' ', '\t', 'a', '\r', 'é', '\n', ' ', '<', '&', '\n', '\r', ' ']))] .utf8
        { lineLimit := 4 } =
      .ok (String.ofList [' ', '\t', 'a', '\r', 'é', '\n', ' ', '<', '&', '\n', '\r', ' ']) :=
  plainText_preformatted trivial (List.append_nil _) (by decide) (by decide)

/-- **A CR LF in preformatted text is one line end where it is not cut.** What is shown of a text
with line ends of both kinds is the text of its pieces, in each of which every CR LF is a LF; it is
the text with every CR LF replaced by a LF exactly when the limit cuts none of them. -/
theorem plainText_preformatted_eq_iff (hstream : stream.Unbroken)
    (hbytes : stream.bytes = Utf8.encode (preformatted text)) (hlimit : 4 ≤ config.lineLimit) :
    (∃ shown, plainText stream .utf8 config = .ok (String.ofList shown) ∧
        preformatted shown = (pieces config.lineLimit (preformatted text)).flatMap foldBreaks) ∧
      (plainText stream .utf8 config = .ok (String.ofList (foldBreaks text)) ↔
        ¬ CutsBreak config.lineLimit (preformatted text)) := by
  obtain ⟨shown, hshown, hfolded⟩ := exists_plainText_preformatted hstream hbytes hlimit
  refine ⟨⟨shown, hshown, hfolded⟩, ?_⟩
  rw [← flatMap_pieces_eq_iff hlimit, ← hfolded, foldBreaks_preformatted,
    preformatted_injective.eq_iff, hshown, Except.ok.injEq, String.ofList_inj]

/-- A CR LF under the limit that is set when no other is. -/
theorem plainText_preformatted_whole_break :
    plainText [.segment (Utf8.encode (preformatted ['a', '\r', '\n', 'b']))] .utf8 {} =
        .ok (String.ofList ['a', '\n', 'b']) ∧
      ¬ CutsBreak 8192 (preformatted ['a', '\r', '\n', 'b']) := by
  have hstream : Stream.Unbroken
    [.segment (Utf8.encode (preformatted ['a', '\r', '\n', 'b']))] := trivial
  have hlimit : 4 ≤ ({} : Config).lineLimit := by decide
  have hshown : plainText [.segment (Utf8.encode (preformatted ['a', '\r', '\n', 'b']))] .utf8 {} =
      .ok (String.ofList ['a', '\n', 'b']) := by cbv
  exact ⟨hshown, (plainText_preformatted_eq_iff hstream (List.append_nil _) hlimit).2.1 hshown⟩

/-- A CR LF that the limit cuts: the CR is shown with the LF. -/
theorem plainText_preformatted_cut_break :
    plainText [.segment (Utf8.encode (preformatted ['a', '\r', '\n', 'b']))] .utf8
        { lineLimit := 7 } = .ok "a\r\nb" ∧
      plainText [.segment (Utf8.encode (preformatted ['a', '\r', '\n', 'b']))] .utf8
          { lineLimit := 7 } ≠ .ok (String.ofList (foldBreaks ['a', '\r', '\n', 'b'])) := by
  have hshown : plainText [.segment (Utf8.encode (preformatted ['a', '\r', '\n', 'b']))] .utf8
      { lineLimit := 7 } = .ok "a\r\nb" := by cbv
  refine ⟨hshown, ?_⟩
  rw [hshown]
  decide

end

end BodyText
