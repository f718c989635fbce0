import BodyText.Proofs.Supply

/-!
# The items of a whole text

What a text holds can be told in one pass over all of it (`itemsOf`), with no word of lines. A
block reaches to its closing and a tag to its `>`, however far away they are; only a `&` is looked
at no further than its line, unless a `<` without a `>` had all of the text read before it.

A supply holds the items of its text (`Supply.items_eq_itemsOf`), provided that its parts end where
lines do or within lines (`Supply.Lined`) and that no mark is cut between two of them
(`Supply.Intact`).
-/

namespace BodyText

/-! ### One pass -/

/-- The text that a `&` at its start is looked at with: its line, or all of it. -/
def window (whole : Bool) (text : List Char) : List Char :=
  if whole then text else text.takeWhile (· ≠ '\n')

/-- The item that a text starts with, whether all of the text was read for it, and the text after
it. -/
def scanItem (whole : Bool) (text : List Char) : Head → Item × Bool × List Char
  | .block b rest => (.skipped, whole, (b.closed? rest).getD [])
  | .tag rest =>
    match splitAt? '>' rest with
    | some (tag, after) => (.tag tag, whole, after)
    | none => (.unclosed rest, true, rest)
  | .ampersand rest =>
    match Reference.token? (window whole text) with
    | some (token, _) => (.reference token, whole, text.drop token.length)
    | none => (.char '&', whole, rest)
  | .blank d rest => (.blank d, whole, rest)
  | .char d rest => (.char d, whole, rest)

/-- An item takes something off the text. -/
theorem length_scanItem {whole : Bool} {text : List Char} {head : Head}
    (h : Head.of? text = some head) : (scanItem whole text head).2.2.length < text.length := by
  have hrest := Head.length_rest h
  cases head with
  | block b rest =>
    refine Nat.lt_of_le_of_lt ?_ hrest
    cases hclosed : b.closed? rest with
    | none => simp [scanItem, hclosed]
    | some after =>
      have hle := length_of_past? hclosed
      simpa [scanItem, hclosed, Head.rest] using hle
  | tag rest =>
    refine Nat.lt_of_le_of_lt ?_ hrest
    rw [scanItem]
    split
    · rename_i tag after hsplit
      have hlen := congrArg List.length (eq_append_of_splitAt? hsplit)
      simp only [List.length_append, List.length_cons] at hlen
      simp only [Head.rest]
      omega
    · exact Nat.le_refl _
  | ampersand rest =>
    rw [scanItem]
    split
    · rename_i token after htoken
      have hpos := List.length_pos_iff.2 (Reference.eq_append_of_tokenWithin? htoken).1
      rw [List.length_drop]
      omega
    · exact hrest
  | blank d rest => exact hrest
  | char d rest => exact hrest

/-- The items of a text, all of which may have been read already. -/
def itemsOf (whole : Bool) (text : List Char) : List Item :=
  match known (Head.of? text) with
  | ⟨none, _⟩ => []
  | ⟨some head, _⟩ =>
    (scanItem whole text head).1 ::
      itemsOf (scanItem whole text head).2.1 (scanItem whole text head).2.2
termination_by text.length
decreasing_by exact length_scanItem ‹_›

@[simp] theorem itemsOf_nil (whole : Bool) : itemsOf whole [] = [] := by
  rw [itemsOf]
  rfl

theorem itemsOf_of_head {whole : Bool} {text : List Char} {head : Head}
    (h : Head.of? text = some head) :
    itemsOf whole text =
      (scanItem whole text head).1 ::
        itemsOf (scanItem whole text head).2.1 (scanItem whole text head).2.2 := by
  rw [itemsOf]
  split
  · rename_i hd _
    rw [h] at hd
    cases hd
  · rename_i hd _
    rw [h] at hd
    cases hd
    rfl

/-! ### References that are at hand -/

namespace Reference

theorem tokenWithin?_eq_none {room : Nat} {cs : List Char} (h : room = 0 ∨ ';' ∉ cs) :
    tokenWithin? room cs = none := by
  induction cs generalizing room with
  | nil => rfl
  | cons c cs ih =>
    rw [tokenWithin?]
    split
    · rfl
    · rename_i hroom
      have hpos := Char.utf8Size_pos c
      rcases h with rfl | hmem
      · omega
      · rw [List.mem_cons, not_or] at hmem
        rw [if_neg (Ne.symm hmem.1), ih (.inr hmem.2), Option.map_none]

/-- A reference ends at a `;`. -/
theorem mem_of_tokenWithin? {room : Nat} {cs token rest : List Char}
    (h : tokenWithin? room cs = some (token, rest)) : ';' ∈ token := by
  induction cs generalizing room token with
  | nil => cases h
  | cons c cs ih =>
    rw [tokenWithin?] at h
    split at h
    · cases h
    · split at h
      · rename_i hc
        cases h
        exact List.mem_singleton.2 hc.symm
      · obtain ⟨⟨token', rest'⟩, htoken, hparts⟩ := Option.map_eq_some_iff.1 h
        cases hparts
        exact List.mem_cons_of_mem c (ih htoken)

/-- What follows a text does not change which reference it starts with, when the text is long
enough or holds a `;`, or when no `;` follows. -/
theorem tokenWithin?_append {room : Nat} {cs more : List Char}
    (h : room ≤ byteLength cs ∨ ';' ∈ cs ∨ ';' ∉ more) :
    tokenWithin? room (cs ++ more) =
      (tokenWithin? room cs).map fun parts => (parts.1, parts.2 ++ more) := by
  induction cs generalizing room with
  | nil =>
    refine tokenWithin?_eq_none (h.imp (fun hroom => ?_) fun hmem => ?_)
    · exact Nat.le_zero.1 hroom
    · exact hmem.resolve_left List.not_mem_nil
  | cons c cs ih =>
    rw [List.cons_append, tokenWithin?, tokenWithin?]
    split
    · rfl
    · split
      · rfl
      · rename_i hroom hc
        have hcs : room - c.utf8Size ≤ byteLength cs ∨ ';' ∈ cs ∨ ';' ∉ more := by
          refine h.imp (fun hle => ?_) (Or.imp_left fun hmem => ?_)
          · rw [byteLength] at hle
            omega
          · exact (List.mem_cons.1 hmem).resolve_left (Ne.symm hc)
        rw [ih hcs, Option.map_map, Option.map_map]
        rfl

end Reference

/-! ### Parts of lines -/

/-- A list that holds `e` at its end or not at all. -/
def OnlyAtEnd {α : Type} (e : α) (xs : List α) : Prop := ∀ ys zs, xs = ys ++ e :: zs → zs = []

namespace OnlyAtEnd

variable {α : Type} {e : α} {xs ys : List α}

theorem of_not_mem (h : e ∉ xs) : OnlyAtEnd e xs := by
  rintro before after rfl
  exact absurd (List.mem_append_right before List.mem_cons_self) h

theorem append (hxs : e ∉ xs) (hys : OnlyAtEnd e ys) : OnlyAtEnd e (xs ++ ys) := by
  intro before after h
  obtain ⟨more, hmore⟩ := exists_of_append_eq hxs h
  exact hys more after hmore

theorem cases (h : OnlyAtEnd e xs) : e ∉ xs ∨ ∃ before, xs = before ++ [e] ∧ e ∉ before := by
  by_cases hmem : e ∈ xs
  · obtain ⟨before, after, rfl, hbefore⟩ := List.eq_append_cons_of_mem hmem
    obtain rfl := h before after rfl
    exact .inr ⟨before, rfl, hbefore⟩
  · exact .inl hmem

end OnlyAtEnd

/-- A text with no line end but at its end. -/
def LineText (cs : List Char) : Prop := ∀ xs ys, cs = xs ++ '\n' :: ys → ys = []

theorem LineText.of_suffix {cs cs' : List Char} (h : LineText cs) (hsuffix : cs' <:+ cs) :
    LineText cs' := by
  rintro xs ys rfl
  obtain ⟨before, rfl⟩ := hsuffix
  exact h (before ++ xs) ys (List.append_assoc ..).symm

theorem LineText.append {xs ys : List Char} (hxs : '\n' ∉ xs) (hys : LineText ys) :
    LineText (xs ++ ys) :=
  OnlyAtEnd.append hxs hys

theorem lineText_of_not_mem {cs : List Char} (h : '\n' ∉ cs) : LineText cs :=
  OnlyAtEnd.of_not_mem h

/-- A line with its line end. -/
theorem lineText_concat {line : List Char} (h : '\n' ∉ line) : LineText (line ++ ['\n']) := by
  refine LineText.append h fun xs ys htext => ?_
  have hlen := congrArg List.length htext
  simp only [List.length_append, List.length_cons, List.length_nil] at hlen
  exact List.length_eq_zero_iff.1 (by omega)

/-- A line end, if there is one, stands at the end. -/
theorem LineText.cases {cs : List Char} (h : LineText cs) :
    '\n' ∉ cs ∨ ∃ xs, cs = xs ++ ['\n'] ∧ '\n' ∉ xs :=
  OnlyAtEnd.cases h

theorem window_of_not_mem {cs : List Char} (h : '\n' ∉ cs) (more : List Char) :
    window false (cs ++ more) = cs ++ window false more := by
  apply List.takeWhile_append_of_pos
  intro c hc
  simpa using ne_of_mem_of_not_mem hc h

namespace Supply

/-- A supply whose parts hold no line end but at their ends, or, when all of the text was read, with
no part to come. -/
def Lined (whole : Bool) (s : Supply) : Prop :=
  if whole then s.later = [] else LineText s.atHand ∧ ∀ part ∈ s.later, LineText part

/-- A supply where no mark is cut between two parts. -/
def Intact (s : Supply) : Prop :=
  ∀ first later, s.atHand :: s.later = first ++ later →
    ∀ mark ∈ marks, ¬ Severs mark first.flatten later.flatten

theorem Intact.of_leaves {s s' : Supply} (h : s.Intact) (hleaves : s.Leaves s') : s'.Intact := by
  obtain ⟨taken, hlater, hsuffix⟩ := hleaves
  intro first later hparts mark hmark hsevers
  cases first with
  | nil => exact not_severs_nil mark later.flatten hsevers
  | cons part first =>
    rw [List.cons_append, List.cons.injEq] at hparts
    obtain ⟨rfl, hparts⟩ := hparts
    refine h (s.atHand :: (taken ++ first)) later ?_ mark hmark (hsevers.of_suffix ?_)
    · rw [hlater, hparts, List.cons_append, List.append_assoc]
    · rw [List.flatten_cons, List.flatten_cons, List.flatten_append, ← List.append_assoc]
      exact List.suffix_append_self_iff.2 hsuffix

theorem Lined.of_suffix {whole : Bool} {s : Supply} {cs : List Char} (h : s.Lined whole)
    (hsuffix : cs <:+ s.atHand) : Lined whole ⟨cs, s.later⟩ := by
  cases whole with
  | true => exact h
  | false => exact ⟨h.1.of_suffix hsuffix, h.2⟩

theorem Within.lined {whole : Bool} {s s' : Supply} (h : s.Within s') (hlined : s.Lined whole) :
    s'.Lined whole := by
  obtain ⟨taken, part, hparts, hsuffix⟩ := h
  cases whole with
  | true =>
    have hnil : s.later = [] := hlined
    have hlen := congrArg List.length hparts
    rw [hnil, List.length_append, List.length_cons, List.length_cons, List.length_nil] at hlen
    exact List.length_eq_zero_iff.1 (by omega)
  | false =>
    have hall : ∀ p ∈ s.atHand :: s.later, LineText p := by
      intro p hp
      rcases List.mem_cons.1 hp with rfl | hp
      · exact hlined.1
      · exact hlined.2 p hp
    rw [hparts] at hall
    refine ⟨(hall part (List.mem_append_right taken List.mem_cons_self)).of_suffix hsuffix, ?_⟩
    intro p hp
    exact hall p (List.mem_append_right taken (List.mem_cons_of_mem part hp))

/-- Where a line end is enough, no text is read past one. -/
theorem Lined.gather_settled {whole : Bool} {s : Supply} (h : s.Lined whole) :
    (gather Reference.settled s.atHand s.later).Lined whole := by
  obtain ⟨cs, parts⟩ := s
  simp only
  fun_induction gather Reference.settled cs parts with
  | case1 => exact h
  | case2 => exact h
  | case3 cs part parts hnot ih =>
    apply ih
    cases whole with
    | true => exact absurd (show part :: parts = [] from h) (by simp)
    | false =>
      refine ⟨LineText.append (fun hmem => hnot ?_) (h.2 part List.mem_cons_self),
        fun part' hpart' => h.2 part' (List.mem_cons_of_mem part hpart')⟩
      rcases h.1.cases with hno | ⟨xs, hxs, -⟩
      · exact absurd hmem hno
      · simp only at hxs
        simp [Reference.settled, hxs]

/-! ### Reading agrees with the pass -/

/-- What was read from a supply is what one pass over its text comes to. -/
structure Agrees (read : Item × Supply) (scan : Item × Bool × List Char) : Prop where
  /-- The items are the same. -/
  item : read.1 = scan.1
  /-- The texts after them are the same. -/
  text : read.2.text = scan.2.2
  /-- The supply that is left is made of parts of lines. -/
  lined : read.2.Lined scan.2.1

variable {whole : Bool} {s : Supply}

theorem agrees_block {b : Block} {rest : List Char} (h : s.Lined whole)
    (hrest : rest <:+ s.atHand) :
    Agrees (s.readItem (.block b rest))
      (scanItem whole s.text (.block b (rest ++ s.later.flatten))) := by
  have htext := text_gather (fun cs => (b.closed? cs).isSome) rest s.later
  rw [readItem, scanItem, ← htext]
  refine ⟨rfl, ?_, ?_⟩
  · rcases enough_gather (fun cs => (b.closed? cs).isSome) rest s.later with hsome | hnil
    · obtain ⟨after, hafter⟩ := Option.isSome_iff_exists.1 hsome
      simp only [text, hafter, Option.getD_some]
      rw [Block.closed?, past?_append_of_some hafter, Option.getD_some]
    · simp [text, hnil]
  · refine (Within.of_gather _ (fun cs => (b.closed? cs).getD []) _ _ ?_ ?_).lined
      (h.of_suffix hrest)
    · cases hclosed : b.closed? rest with
      | none => exact List.nil_suffix
      | some after => exact suffix_of_past? hclosed
    · intro xs part hnot
      simp only [Option.isSome_eq_false_iff, Option.isNone_iff_eq_none] at hnot
      cases hclosed : b.closed? (xs ++ part) with
      | none => exact List.nil_suffix
      | some after => exact suffix_of_past?_append hnot hclosed

/-- Behind a tag, no more is left than the end of the part that closed it. -/
theorem within_gather_tag (cs : List Char) (parts : List (List Char)) :
    Within ⟨cs, parts⟩
      ⟨((splitAt? '>' (gather (fun cs => cs.contains '>') cs parts).atHand).map
          Prod.snd).getD [], (gather (fun cs => cs.contains '>') cs parts).later⟩ := by
  apply Within.of_gather _ fun cs => ((splitAt? '>' cs).map Prod.snd).getD []
  · cases hsplit : splitAt? '>' cs with
    | none => exact List.nil_suffix
    | some found =>
      obtain ⟨tag, after⟩ := found
      exact ⟨tag ++ ['>'], by simp [eq_append_of_splitAt? hsplit]⟩
  · intro xs part hnot
    cases hsplit : splitAt? '>' (xs ++ part) with
    | none => exact List.nil_suffix
    | some found => exact suffix_of_splitAt? (by simpa using hnot) hsplit

theorem agrees_tag {rest : List Char} (h : s.Lined whole) (hrest : rest <:+ s.atHand) :
    Agrees (s.readItem (.tag rest)) (scanItem whole s.text (.tag (rest ++ s.later.flatten))) := by
  have htext := text_gather (fun cs => cs.contains '>') rest s.later
  have hlined := (within_gather_tag rest s.later).lined (h.of_suffix hrest)
  rw [readItem, scanItem, ← htext]
  cases hsplit : splitAt? '>' (gather (fun cs => cs.contains '>') rest s.later).atHand with
  | none =>
    have hno := splitAt?_eq_none_iff.1 hsplit
    have hnil : (gather (fun cs => cs.contains '>') rest s.later).later = [] := by
      refine (enough_gather _ rest s.later).resolve_left fun henough => hno ?_
      simpa using henough
    have hatHand : (gather (fun cs => cs.contains '>') rest s.later).text =
        (gather (fun cs => cs.contains '>') rest s.later).atHand := by
      rw [text, hnil, List.flatten_nil, List.append_nil]
    rw [hatHand, hsplit]
    exact ⟨rfl, hatHand, hnil⟩
  | some parts =>
    obtain ⟨tag, after⟩ := parts
    have hmem : '>' ∈ (gather (fun cs => cs.contains '>') rest s.later).atHand := by
      rw [eq_append_of_splitAt? hsplit]
      exact List.mem_append_right tag List.mem_cons_self
    rw [text, splitAt?_append hmem, hsplit, Option.map_some]
    simp only [hsplit, Option.map_some, Option.getD_some] at hlined
    exact ⟨rfl, rfl, hlined⟩

/-- The text that is at hand behind a `&` shows the reference that the line starts with. -/
theorem token?_window (h : s.Lined whole)
    (henough : Reference.settled s.atHand = true ∨ s.later = []) :
    (Reference.token? (window whole s.text)).map Prod.fst =
      (Reference.token? s.atHand).map Prod.fst := by
  cases whole with
  | true =>
    have hnil : s.later = [] := h
    rw [text, hnil, List.flatten_nil, List.append_nil]
    rfl
  | false =>
    rcases h.1.cases with hno | ⟨line, hline, hno⟩
    · rw [text, window_of_not_mem hno, Reference.token?, Reference.tokenWithin?_append,
        Option.map_map]
      · rfl
      · rcases henough with hsettled | hnil
        · simp only [Reference.settled, Bool.or_eq_true, decide_eq_true_eq, longerThan_iff,
            List.contains_iff_mem] at hsettled
          rcases hsettled with (hlong | hlast) | hmem
          · exact .inl hlong
          · exact absurd (List.mem_of_getLast? hlast) hno
          · exact .inr (.inl hmem)
        · rw [hnil]
          exact .inr (.inr List.not_mem_nil)
    · have hwindow : window false s.text = line := by
        rw [text, hline, List.append_assoc, window_of_not_mem hno]
        exact List.append_nil line
      rw [hwindow, hline]
      have happend : Reference.token? (line ++ ['\n']) =
          (Reference.token? line).map fun parts => (parts.1, parts.2 ++ ['\n']) :=
        Reference.tokenWithin?_append (.inr (.inr (by decide)))
      rw [happend, Option.map_map]
      rfl

theorem agrees_ampersand {rest : List Char} (h : s.Lined whole) (hhead : s.atHand = '&' :: rest) :
    Agrees (s.readItem (.ampersand rest))
      (scanItem whole s.text (.ampersand (rest ++ s.later.flatten))) := by
  have htext : (gather Reference.settled s.atHand s.later).text = s.text := text_gather ..
  have hlined := h.gather_settled
  have htoken := token?_window hlined (enough_gather Reference.settled s.atHand s.later)
  obtain ⟨taken, hlater, hatHand⟩ := gather_eq_append Reference.settled s.atHand s.later
  rw [htext] at htoken
  rw [readItem, scanItem]
  generalize gather Reference.settled s.atHand s.later = found at *
  cases hfound : Reference.token? found.atHand with
  | none =>
    rw [hfound, Option.map_none, Option.map_eq_none_iff] at htoken
    rw [htoken]
    refine ⟨rfl, ?_, hlined.of_suffix (List.drop_suffix 1 _)⟩
    simp only [text, hatHand, hhead, List.cons_append, List.drop_succ_cons, List.drop_zero,
      List.append_assoc]
    rw [← List.flatten_append, ← hlater]
  | some parts =>
    obtain ⟨token, after⟩ := parts
    obtain ⟨-, happ⟩ := Reference.eq_append_of_tokenWithin? hfound
    rw [hfound, Option.map_some] at htoken
    obtain ⟨⟨token', after'⟩, hwindow, rfl⟩ := Option.map_eq_some_iff.1 htoken
    rw [hwindow]
    refine ⟨rfl, ?_, hlined.of_suffix ⟨token', happ.symm⟩⟩
    simp only
    rw [← htext, text, text, happ, List.append_assoc, List.drop_left]

/-- An item is read from a supply as one pass over its text finds it. -/
theorem agrees_readItem {head : Head} (h : s.Lined whole) (hhead : Head.of? s.atHand = some head) :
    Agrees (s.readItem head) (scanItem whole s.text (head.extend s.later.flatten)) := by
  have hrest := Head.suffix_rest hhead
  cases head with
  | block b rest => exact agrees_block h hrest
  | tag rest => exact agrees_tag h hrest
  | ampersand rest => exact agrees_ampersand h (Head.eq_cons_of_ampersand hhead)
  | blank d rest => exact ⟨rfl, rfl, h.of_suffix hrest⟩
  | char d rest => exact ⟨rfl, rfl, h.of_suffix hrest⟩

/-! ### Reading what stands first -/

section

variable {rest : List Char}

/-- Reading a tag that closes takes no more than the part that it closes in. -/
theorem within_tag {begin tag : List Char} {s' : Supply} (hbegin : begin <:+ s.atHand)
    (hread : s.readItem (.tag begin) = (.tag tag, s')) : s.Within s' := by
  have hwithin := within_gather_tag begin s.later
  rw [readItem] at hread
  cases hsplit : splitAt? '>' (gather (fun cs => cs.contains '>') begin s.later).atHand with
  | none =>
    rw [hsplit] at hread
    cases hread
  | some found =>
    rw [hsplit] at hread hwithin
    cases hread
    exact ((Within.refl s).of_suffix hbegin).trans hwithin

/-- Reading a reference takes no more than the part that it ends in. -/
theorem within_reference {begin token : List Char} {s' : Supply}
    (hread : s.readItem (.ampersand begin) = (.reference token, s')) : s.Within s' := by
  have hwithin := Within.of_gather Reference.settled
    (fun cs => ((Reference.token? cs).map Prod.snd).getD []) s.atHand s.later
    (by
      cases htoken : Reference.token? s.atHand with
      | none => exact List.nil_suffix
      | some found =>
        obtain ⟨token, after⟩ := found
        exact ⟨token, (Reference.eq_append_of_tokenWithin? htoken).2.symm⟩)
    (by
      intro xs part hnot
      cases htoken : Reference.token? (xs ++ part) with
      | none => exact List.nil_suffix
      | some found =>
        -- the `;` that ends the reference is none of the text that was not enough
        obtain ⟨token, after⟩ := found
        have hsemi := Reference.mem_of_tokenWithin? htoken
        obtain ⟨-, happ⟩ := Reference.eq_append_of_tokenWithin? htoken
        rcases List.append_eq_append_iff.1 happ with ⟨more, -, hpart⟩ | ⟨more, hxs, -⟩
        · exact ⟨more, hpart.symm⟩
        · have hmem : ';' ∈ xs := hxs ▸ List.mem_append_left more hsemi
          simp [Reference.settled, hmem] at hnot)
  rw [readItem] at hread
  cases htoken : Reference.token? (gather Reference.settled s.atHand s.later).atHand with
  | none =>
    rw [htoken] at hread
    cases hread
  | some found =>
    rw [htoken] at hread hwithin
    cases hread
    exact hwithin

/-- What one pass over the text finds first is read first, and leaves what the pass leaves. -/
theorem exists_of_scanItem {whole whole' : Bool} {head : Head} {item : Item}
    (h : s.Lined whole) (hhead : Head.of? s.atHand = some head)
    (hscan : scanItem whole s.text (head.extend s.later.flatten) = (item, whole', rest)) :
    ∃ s' : Supply, s.readItem head = (item, s') ∧ s.items = item :: s'.items ∧ s'.text = rest := by
  have hread := agrees_readItem h hhead
  rw [hscan] at hread
  refine ⟨(s.readItem head).2, Prod.ext hread.item rfl, ?_, hread.text⟩
  rw [items_of_head hhead, hread.item]

/-- Reading a reference. -/
theorem exists_read_reference {token : List Char} (h : s.Lined false) (hatHand : s.atHand ≠ [])
    (htext : s.text = '&' :: token ++ rest) (hline : '\n' ∉ '&' :: token)
    (htoken : ∀ more, Reference.token? ('&' :: token ++ more) = some ('&' :: token, more)) :
    ∃ s' : Supply, s.items = .reference ('&' :: token) :: s'.items ∧ s'.text = rest ∧
      s.Within s' := by
  obtain ⟨c, begin, hcons⟩ := List.exists_cons_of_ne_nil hatHand
  have hboth : c :: (begin ++ s.later.flatten) = '&' :: (token ++ rest) := by
    rw [← List.cons_append, ← List.cons_append, ← hcons, ← htext, text]
  obtain ⟨rfl, -⟩ := List.cons.inj hboth
  have hhead : Head.of? s.atHand = some (.ampersand begin) := by
    rw [hcons, Head.of?_cons (by simp)]
    rfl
  have hscan : scanItem false s.text ((Head.ampersand begin).extend s.later.flatten) =
      (.reference ('&' :: token), false, rest) := by
    rw [htext, Head.extend, scanItem, window_of_not_mem hline, htoken]
    simp only [List.drop_left]
  obtain ⟨s', hread, hitems, hs'⟩ := exists_of_scanItem h hhead hscan
  exact ⟨s', hitems, hs', within_reference hread⟩

/-- Reading a tag that opens no block. -/
theorem exists_read_tag {tag : List Char} (h : s.Lined false) (hatHand : s.atHand ≠ [])
    (htext : s.text = '<' :: (tag ++ '>' :: rest)) (hopened : Block.opened? s.atHand = none)
    (htag : '>' ∉ tag) :
    ∃ s' : Supply, s.items = .tag tag :: s'.items ∧ s'.text = rest ∧ s.Within s' := by
  obtain ⟨c, begin, hcons⟩ := List.exists_cons_of_ne_nil hatHand
  have hboth : c :: (begin ++ s.later.flatten) = '<' :: (tag ++ '>' :: rest) := by
    rw [← List.cons_append, ← hcons, ← htext, text]
  obtain ⟨rfl, hbehind⟩ := List.cons.inj hboth
  have hhead : Head.of? s.atHand = some (.tag begin) := by
    rw [hcons] at hopened ⊢
    rw [Head.of?_cons (by simp), if_pos rfl, hopened]
  have hscan : scanItem false s.text ((Head.tag begin).extend s.later.flatten) =
      (.tag tag, false, rest) := by
    rw [Head.extend, scanItem, hbehind, splitAt?_of_not_mem htag]
  obtain ⟨s', hread, hitems, hs'⟩ := exists_of_scanItem h hhead hscan
  exact ⟨s', hitems, hs', within_tag (hcons ▸ List.suffix_cons _ begin) hread⟩

end

/-! ### All the items of a text -/

theorem Intact.head {s : Supply} {head : Head} (h : s.Intact)
    (hhead : Head.of? s.atHand = some head) :
    Head.of? s.text = some (head.extend s.later.flatten) := by
  refine Head.of?_append hhead fun mark hmark => ?_
  have hcut := h [s.atHand] s.later rfl mark hmark
  rwa [List.flatten_singleton] at hcut

/-- What a supply leaves when an item was read from it. -/
theorem leaves_of_head {head : Head} (hhead : Head.of? s.atHand = some head) :
    s.Leaves (s.readItem head).2 :=
  (Leaves.of_suffix (Head.suffix_rest hhead)).trans (leaves_readItem hhead)

/-- **A supply holds the items of its text**, wherever its parts end, when no mark is cut. -/
theorem items_eq_itemsOf (h : s.Lined whole) (hintact : s.Intact) :
    s.items = itemsOf whole s.text := by
  fun_induction items s generalizing whole with
  | case1 s head hhead _ ih =>
    have hread := agrees_readItem h hhead
    rw [itemsOf_of_head (hintact.head hhead), ← hread.text, ← hread.item,
      ih hread.lined (hintact.of_leaves (leaves_of_head hhead))]
  | case2 s hnone _ hlater =>
    have hatHand := Head.of?_eq_none_iff.1 hnone
    rw [text, hatHand, hlater, List.nil_append, List.flatten_nil, itemsOf_nil]
  | case3 s hnone _ part parts hlater _ ih =>
    have hatHand := Head.of?_eq_none_iff.1 hnone
    have htext : s.text = text ⟨part, parts⟩ := by
      rw [text, text, hatHand, hlater, List.nil_append, List.flatten_cons]
    have hleaves : s.Leaves ⟨part, parts⟩ := ⟨[part], hlater, by simp [hatHand]⟩
    rw [htext]
    refine ih ?_ (hintact.of_leaves hleaves)
    cases whole with
    | true =>
      have hnil : s.later = [] := h
      rw [hnil] at hlater
      cases hlater
    | false =>
      have hparts := hlater ▸ h.2
      exact ⟨hparts part List.mem_cons_self, fun p hp => hparts p (List.mem_cons_of_mem part hp)⟩

end Supply

end BodyText
