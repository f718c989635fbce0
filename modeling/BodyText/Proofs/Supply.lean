import BodyText.Known
import BodyText.Proofs.Marks

/-!
# Supplies of text

What a converter reads from is, once its lines are known, a supply of text: some of it at hand, the
rest still to come line by line. Reading an item from a supply (`Supply.readItem`) takes as many
lines as the item needs, and reading on to the end of the supply tells all the items that the
lines hold (`Supply.items`). Where the lines are cut may make a difference to the items: a block is
told by an opening that is at hand as a whole, and so is the line end CR LF.
-/

namespace BodyText

/-- A text that arrives part by part. -/
structure Supply where
  /-- The text that is at hand. -/
  atHand : List Char
  /-- The parts that are still to come. -/
  later : List (List Char)

namespace Supply

/-- All of the text. -/
def text (s : Supply) : List Char := s.atHand ++ s.later.flatten

/-- What is left of a supply: part of the text at hand, and not all of the parts to come. -/
def Leaves (s s' : Supply) : Prop :=
  ∃ taken, s.later = taken ++ s'.later ∧ s'.atHand <:+ s.atHand ++ taken.flatten

theorem Leaves.of_suffix {s : Supply} {cs : List Char} (h : cs <:+ s.atHand) :
    s.Leaves ⟨cs, s.later⟩ :=
  ⟨[], rfl, by simpa using h⟩

theorem Leaves.trans {s s' s'' : Supply} (h : s.Leaves s') (h' : s'.Leaves s'') :
    s.Leaves s'' := by
  obtain ⟨taken, hlater, hsuffix⟩ := h
  obtain ⟨taken', hlater', hsuffix'⟩ := h'
  refine ⟨taken ++ taken', ?_, ?_⟩
  · rw [hlater, hlater', List.append_assoc]
  · rw [List.flatten_append, ← List.append_assoc]
    exact hsuffix'.trans (List.suffix_append_self_iff.2 hsuffix)

theorem Leaves.length_later_le {s s' : Supply} (h : s.Leaves s') :
    s'.later.length ≤ s.later.length := by
  obtain ⟨taken, hlater, -⟩ := h
  rw [hlater, List.length_append]
  exact Nat.le_add_left _ _

/-! ### Reading on -/

/-- Takes parts until the text at hand is enough, or there are no more parts. -/
def gather (enough : List Char → Bool) : List Char → List (List Char) → Supply
  | cs, [] => ⟨cs, []⟩
  | cs, part :: parts =>
    if enough cs then ⟨cs, part :: parts⟩ else gather enough (cs ++ part) parts

/-- Reading on changes where the text is and not what it is. -/
@[simp] theorem text_gather (enough : List Char → Bool) (cs : List Char)
    (parts : List (List Char)) : (gather enough cs parts).text = cs ++ parts.flatten := by
  fun_induction gather enough cs parts with
  | case1 => rfl
  | case2 => rfl
  | case3 cs part parts h ih => rw [ih, List.flatten_cons, List.append_assoc]

/-- Afterwards the text at hand is enough or there are no more parts. -/
theorem enough_gather (enough : List Char → Bool) (cs : List Char) (parts : List (List Char)) :
    enough (gather enough cs parts).atHand = true ∨ (gather enough cs parts).later = [] := by
  fun_induction gather enough cs parts with
  | case1 => exact .inr rfl
  | case2 cs part parts h => exact .inl h
  | case3 cs part parts h ih => exact ih

/-- Either nothing had to be read, or the text was not enough before its last part was read. -/
theorem gather_cases (enough : List Char → Bool) (cs : List Char) (parts : List (List Char)) :
    gather enough cs parts = ⟨cs, parts⟩ ∨
      ∃ taken part later, parts = taken ++ part :: later ∧ enough (cs ++ taken.flatten) = false ∧
        gather enough cs parts = ⟨cs ++ taken.flatten ++ part, later⟩ := by
  fun_induction gather enough cs parts with
  | case1 => exact .inl rfl
  | case2 => exact .inl rfl
  | case3 cs part parts h ih =>
    right
    rcases ih with hnone | ⟨taken, last, later, hparts, hnot, hgather⟩
    · exact ⟨[], part, parts, rfl, by simpa using h, by simpa using hnone⟩
    · refine ⟨part :: taken, last, later, ?_, ?_, ?_⟩
      · rw [hparts, List.cons_append]
      · rw [List.flatten_cons, ← List.append_assoc]
        exact hnot
      · rw [hgather, List.flatten_cons, ← List.append_assoc]

/-- What is at hand afterwards is what was, with the parts that were taken behind it. -/
theorem gather_eq_append (enough : List Char → Bool) (cs : List Char) (parts : List (List Char)) :
    ∃ taken, parts = taken ++ (gather enough cs parts).later ∧
      (gather enough cs parts).atHand = cs ++ taken.flatten := by
  rcases gather_cases enough cs parts with hnone | ⟨taken, part, later, hparts, -, hgather⟩
  · rw [hnone]
    exact ⟨[], rfl, by simp⟩
  · rw [hgather]
    exact ⟨taken ++ [part], by simp [hparts], by simp⟩

/-! ### Within a part -/

/-- What is left of a supply when nothing was read ahead: the end of a part, and the parts behind
it. -/
def Within (s s' : Supply) : Prop :=
  ∃ taken part, s.atHand :: s.later = taken ++ part :: s'.later ∧ s'.atHand <:+ part

theorem Within.refl (s : Supply) : s.Within s := ⟨[], s.atHand, rfl, List.suffix_rfl⟩

theorem Within.of_suffix {s s' : Supply} {cs : List Char} (h : s.Within s')
    (hcs : cs <:+ s'.atHand) : s.Within ⟨cs, s'.later⟩ := by
  obtain ⟨taken, part, hparts, hsuffix⟩ := h
  exact ⟨taken, part, hparts, hcs.trans hsuffix⟩

/-- Once nothing is at hand, the next part is. -/
theorem Within.next {s s' : Supply} {part : List Char} {parts : List (List Char)}
    (h : s.Within s') (hlater : s'.later = part :: parts) : s.Within ⟨part, parts⟩ := by
  obtain ⟨taken, last, hparts, -⟩ := h
  refine ⟨taken ++ [last], part, ?_, List.suffix_rfl⟩
  rw [hparts, hlater, List.append_assoc]
  rfl

theorem Within.leaves {s s' : Supply} (h : s.Within s') : s.Leaves s' := by
  obtain ⟨taken, part, hparts, hsuffix⟩ := h
  rcases List.cons_eq_append_iff.1 hparts with ⟨rfl, hpart⟩ | ⟨taken, rfl, hlater⟩
  · obtain ⟨rfl, hlater⟩ := List.cons.inj hpart
    exact ⟨[], hlater.symm, by simpa using hsuffix⟩
  · refine ⟨taken ++ [part], by simp [hlater], ?_⟩
    rw [List.flatten_append, ← List.append_assoc]
    exact List.suffix_append_of_suffix (by simpa using hsuffix)

theorem Within.trans {s s' s'' : Supply} (h : s.Within s') (h' : s'.Within s'') :
    s.Within s'' := by
  obtain ⟨taken, part, hparts, hsuffix⟩ := h
  obtain ⟨taken', part', hparts', hsuffix'⟩ := h'
  rcases List.cons_eq_append_iff.1 hparts' with ⟨rfl, hpart⟩ | ⟨taken', rfl, hlater⟩
  · obtain ⟨rfl, hlater⟩ := List.cons.inj hpart
    exact ⟨taken, part, hlater ▸ hparts, hsuffix'.trans hsuffix⟩
  · refine ⟨taken ++ part :: taken', part', ?_, hsuffix'⟩
    rw [hparts, hlater, List.append_assoc, List.cons_append]

/-- What is left when reading on came to its end, provided that nothing of the text that was not
enough is left. -/
theorem Within.of_gather (enough : List Char → Bool) (left : List Char → List Char)
    (cs : List Char) (parts : List (List Char)) (hcs : left cs <:+ cs)
    (hleft : ∀ xs part, enough xs = false → left (xs ++ part) <:+ part) :
    Within ⟨cs, parts⟩
      ⟨left (gather enough cs parts).atHand, (gather enough cs parts).later⟩ := by
  rcases gather_cases enough cs parts with hnone | ⟨taken, part, later, rfl, hnot, hgather⟩
  · rw [hnone]
    exact ⟨[], cs, rfl, hcs⟩
  · rw [hgather]
    exact ⟨cs :: taken, part, rfl, hleft _ part hnot⟩

/-! ### Reading an item -/

/-- Reads the item that the text at hand starts with. -/
def readItem (s : Supply) : Head → Item × Supply
  | .block b rest =>
    let found := gather (fun cs => (b.closed? cs).isSome) rest s.later
    (.skipped, ⟨(b.closed? found.atHand).getD [], found.later⟩)
  | .tag rest =>
    let found := gather (fun cs => cs.contains '>') rest s.later
    match splitAt? '>' found.atHand with
    | some (text, after) => (.tag text, ⟨after, found.later⟩)
    | none => (.unclosed found.atHand, found)
  | .ampersand _ =>
    let found := gather Reference.settled s.atHand s.later
    match Reference.token? found.atHand with
    | some (token, after) => (.reference token, ⟨after, found.later⟩)
    | none => (.char '&', ⟨found.atHand.drop 1, found.later⟩)
  | .blank d rest => (.blank d, ⟨rest, s.later⟩)
  | .char d rest => (.char d, ⟨rest, s.later⟩)

/-- What an item leaves is left of what follows its head. -/
theorem leaves_readItem {s : Supply} {head : Head} (h : Head.of? s.atHand = some head) :
    Leaves ⟨head.rest, s.later⟩ (s.readItem head).2 := by
  cases head with
  | block b rest =>
    obtain ⟨taken, hlater, hatHand⟩ :=
      gather_eq_append (fun cs => (b.closed? cs).isSome) rest s.later
    refine ⟨taken, hlater, ?_⟩
    unfold readItem
    simp only [Head.rest]
    rw [← hatHand]
    cases hclosed : b.closed? (gather (fun cs => (b.closed? cs).isSome) rest s.later).atHand with
    | none => exact List.nil_suffix
    | some after => exact suffix_of_past? hclosed
  | tag rest =>
    obtain ⟨taken, hlater, hatHand⟩ := gather_eq_append (fun cs => cs.contains '>') rest s.later
    unfold readItem
    simp only [Head.rest]
    cases hsplit : splitAt? '>' (gather (fun cs => cs.contains '>') rest s.later).atHand with
    | none => exact ⟨taken, hlater, hatHand ▸ List.suffix_rfl⟩
    | some parts =>
      obtain ⟨text, after⟩ := parts
      refine ⟨taken, hlater, ?_⟩
      rw [← hatHand, eq_append_of_splitAt? hsplit]
      exact ⟨text ++ ['>'], by simp⟩
  | ampersand rest =>
    obtain ⟨taken, hlater, hatHand⟩ := gather_eq_append Reference.settled s.atHand s.later
    rw [Head.eq_cons_of_ampersand h, List.cons_append] at hatHand
    rw [Head.eq_cons_of_ampersand h] at hlater
    rw [readItem, Head.eq_cons_of_ampersand h]
    simp only [Head.rest]
    cases htoken : Reference.token? (gather Reference.settled ('&' :: rest) s.later).atHand with
    | none =>
      refine ⟨taken, hlater, ?_⟩
      rw [hatHand]
      exact List.suffix_rfl
    | some parts =>
      obtain ⟨token, after⟩ := parts
      obtain ⟨htoken_ne, happ⟩ := Reference.eq_append_of_tokenWithin? htoken
      obtain ⟨c, token, rfl⟩ := List.exists_cons_of_ne_nil htoken_ne
      rw [hatHand, List.cons_append, List.cons.injEq] at happ
      refine ⟨taken, hlater, ?_⟩
      rw [happ.2]
      exact List.suffix_append token after
  | blank d rest => exact .of_suffix List.suffix_rfl
  | char d rest => exact .of_suffix List.suffix_rfl

theorem Leaves.suffix_text {s s' : Supply} (h : s.Leaves s') : s'.text <:+ s.text := by
  obtain ⟨taken, hlater, hsuffix⟩ := h
  rw [text, text, hlater, List.flatten_append, ← List.append_assoc]
  exact List.suffix_append_self_iff.2 hsuffix

theorem length_readItem {s : Supply} {head : Head} (h : Head.of? s.atHand = some head) :
    (s.readItem head).2.text.length < s.text.length ∧
      (s.readItem head).2.later.length ≤ s.later.length := by
  have hleaves := leaves_readItem h
  have hrest := Head.length_rest h
  have htext := hleaves.suffix_text.length_le
  simp only [text, List.length_append] at htext ⊢
  exact ⟨by omega, hleaves.length_later_le⟩

/-! ### All the items -/

/-- The items that a supply holds. -/
def items (s : Supply) : List Item :=
  match known (Head.of? s.atHand) with
  | ⟨some head, _⟩ => (s.readItem head).1 :: items (s.readItem head).2
  | ⟨none, _⟩ =>
    match known s.later with
    | ⟨[], _⟩ => []
    | ⟨part :: parts, _⟩ => items ⟨part, parts⟩
termination_by s.text.length + s.later.length
decreasing_by
  · have hlen := length_readItem ‹_›
    omega
  · have hlater : s.later = part :: parts := ‹_›
    simp only [text, hlater, List.flatten_cons, List.length_append, List.length_cons]
    omega

theorem items_of_head {s : Supply} {head : Head} (h : Head.of? s.atHand = some head) :
    s.items = (s.readItem head).1 :: (s.readItem head).2.items := by
  rw [items]
  split
  · rename_i hd _
    rw [h] at hd
    cases hd
    rfl
  · rename_i hd _
    rw [h] at hd
    cases hd

@[simp] theorem items_nil : items ⟨[], []⟩ = [] := by
  rw [items]
  rfl

/-- With no text at hand, the items are those of the parts to come. -/
@[simp] theorem items_cons (part : List Char) (parts : List (List Char)) :
    items ⟨[], part :: parts⟩ = items ⟨part, parts⟩ := by
  rw [items]
  rfl

end Supply

end BodyText
