import BodyText.Markup.Action
import BodyText.Markup.Tag
import BodyText.Proofs.Marks
import Mathlib

/-!
# Letter case in tags

Tags are read alike whatever the case of the ASCII letters in them. Two texts that are the same but for
that (`SameLetters`) are cut at the same places, since no letter decides where a cut is
(`CaseBlind`); so the parts are again the same but for the case, and values stand in the same bytes
(`SameRange`). What comes of it is that the two tags have the same name and the same names of attributes,
and do the same (`Tag.read_alike`).
-/

namespace BodyText

/-! ### Texts of the same letters -/

/-- Two texts that are the same but for the case of ASCII letters. -/
def SameLetters (xs ys : List Char) : Prop := lower xs = lower ys

/-- A set of characters that has both cases of a letter or none. -/
def CaseBlind (p : Char → Bool) : Prop := ∀ c, p c.toLower = p c

/-- A character that is no letter comes of itself alone. -/
theorem toLower_eq_iff {c d : Char} (hd : d.isLower = false) (hd' : d.toLower = d) :
    c.toLower = d ↔ c = d := by
  constructor
  · exact eq_of_toLower hd
  · rintro rfl
    exact hd'

theorem caseBlind_ne {d : Char} (hd : d.isLower = false) (hd' : d.toLower = d) :
    CaseBlind (· ≠ d) := by
  intro c
  simp [toLower_eq_iff hd hd']

theorem caseBlind_isBlank : CaseBlind isBlank := by
  intro c
  simp only [isBlank, toLower_eq_iff (d := '\t') rfl rfl, toLower_eq_iff (d := '\n') rfl rfl,
    toLower_eq_iff (d := '\x0c') rfl rfl, toLower_eq_iff (d := '\r') rfl rfl,
    toLower_eq_iff (d := ' ') rfl rfl]

theorem caseBlind_isNameChar : CaseBlind Tag.isNameChar := by
  intro c
  simp only [Tag.isNameChar, caseBlind_isBlank c, ne_eq, toLower_eq_iff (d := '=') rfl rfl]

theorem CaseBlind.not {p : Char → Bool} (h : CaseBlind p) : CaseBlind (!p ·) := by
  intro c
  simp only [h c]

theorem caseBlind_isSpace : CaseBlind isSpace := by
  intro c
  rcases toLower_cases c with hsame | ⟨hlow, hhigh, hlower⟩
  · rw [hsame]
  · have hno {d : Char} (h : 65 ≤ d.toNat ∧ d.toNat ≤ 122) : isSpace d = false := by
      simp only [isSpace, spaceRanges, List.any_cons, List.any_nil, Bool.or_false,
        Bool.or_eq_false_iff, Bool.and_eq_false_iff, decide_eq_false_iff_not]
      omega
    rw [hno (by omega), hno (by omega)]

theorem utf8Size_toLower (c : Char) : c.toLower.utf8Size = c.utf8Size := by
  rcases toLower_cases c with hsame | ⟨hlow, hhigh, hlower⟩
  · rw [hsame]
  · have hone {d : Char} (h : d.toNat ≤ 122) : d.utf8Size = 1 :=
      Char.utf8Size_eq_one_iff.2 (UInt32.le_iff_toNat_le.2 (Nat.le_trans h (by decide)))
    rw [hone (by omega), hone (by omega)]

namespace SameLetters

variable {xs ys xs' ys' : List Char}

theorem refl (xs : List Char) : SameLetters xs xs := rfl

theorem length_eq (h : SameLetters xs ys) : xs.length = ys.length := by
  rw [← length_lower xs, h, length_lower]

theorem eq_nil_iff (h : SameLetters xs ys) : xs = [] ↔ ys = [] := by
  rw [← List.length_eq_zero_iff, h.length_eq, List.length_eq_zero_iff]

theorem exists_cons {c : Char} (h : SameLetters (c :: xs) ys) :
    ∃ d ds, ys = d :: ds ∧ c.toLower = d.toLower ∧ SameLetters xs ds := by
  cases ys with
  | nil => cases h
  | cons d ds =>
    obtain ⟨hc, hrest⟩ := List.cons.inj h
    exact ⟨d, ds, rfl, hc, hrest⟩

/-- Where the first of two texts has a character that is no letter, the other one has it too. -/
theorem exists_cons_of_ne {c : Char} (h : SameLetters (c :: xs) ys) (hc : c.isLower = false)
    (hc' : c.toLower = c) : ∃ ds, ys = c :: ds ∧ SameLetters xs ds := by
  obtain ⟨d, ds, rfl, hd, hrest⟩ := h.exists_cons
  obtain rfl := eq_of_toLower hc (hd.symm.trans hc')
  exact ⟨ds, rfl, hrest⟩

theorem symm (h : SameLetters xs ys) : SameLetters ys xs := Eq.symm h

theorem reverse (h : SameLetters xs ys) : SameLetters xs.reverse ys.reverse := by
  rw [SameLetters, lower, lower, List.map_reverse, List.map_reverse]
  exact congrArg List.reverse h

theorem takeWhile (h : SameLetters xs ys) {p : Char → Bool} (hp : CaseBlind p) :
    SameLetters (xs.takeWhile p) (ys.takeWhile p) := by
  have hcomp : p ∘ Char.toLower = p := funext hp
  have hmap (cs : List Char) : lower (cs.takeWhile p) = (lower cs).takeWhile p := by
    rw [lower, lower, List.takeWhile_map, hcomp]
  rw [SameLetters, hmap, hmap, h]

theorem dropWhile (h : SameLetters xs ys) {p : Char → Bool} (hp : CaseBlind p) :
    SameLetters (xs.dropWhile p) (ys.dropWhile p) := by
  have hcomp : p ∘ Char.toLower = p := funext hp
  have hmap (cs : List Char) : lower (cs.dropWhile p) = (lower cs).dropWhile p := by
    rw [lower, lower, List.dropWhile_map, hcomp]
  rw [SameLetters, hmap, hmap, h]

theorem trimEndBy (h : SameLetters xs ys) {p : Char → Bool} (hp : CaseBlind p) :
    SameLetters (BodyText.trimEndBy p xs) (BodyText.trimEndBy p ys) :=
  (h.reverse.dropWhile hp).reverse

theorem byteLength_eq (h : SameLetters xs ys) : byteLength xs = byteLength ys := by
  induction xs generalizing ys with
  | nil => rw [h.eq_nil_iff.1 rfl]
  | cons c xs ih =>
    obtain ⟨d, ds, rfl, hc, hrest⟩ := h.exists_cons
    rw [byteLength, byteLength, ih hrest, ← utf8Size_toLower c, hc, utf8Size_toLower]

/-- What stands before parts of the same letters has the same letters. -/
theorem of_append (h : SameLetters (xs ++ ys) (xs' ++ ys')) (hys : SameLetters ys ys') :
    SameLetters xs xs' := by
  rw [SameLetters, lower_append, lower_append] at h
  exact List.append_inj_left' h (by rw [length_lower, length_lower, hys.length_eq])

end SameLetters

/-! ### Parts in the same bytes -/

/-- Two parts that stand in the same range of bytes, each in its text. -/
def SameRange (text text' part part' : List Char) : Prop :=
  ∃ before after before' after', text = before ++ (part ++ after) ∧
    text' = before' ++ (part' ++ after') ∧ byteLength before = byteLength before' ∧
    byteLength part = byteLength part'

namespace SameRange

variable {xs ys xs' ys' part part' : List Char}

theorem of_prefix (h : SameRange xs ys part part') (hxs : xs <+: xs') (hys : ys <+: ys') :
    SameRange xs' ys' part part' := by
  obtain ⟨before, after, before', after', rfl, rfl, hlen⟩ := h
  obtain ⟨more, rfl⟩ := hxs
  obtain ⟨more', rfl⟩ := hys
  exact ⟨before, after ++ more, before', after' ++ more', by simp, by simp, hlen⟩

theorem of_suffix (h : SameRange xs ys part part') (hxs : xs <:+ xs') (hys : ys <:+ ys')
    (hsame : SameLetters xs ys) (hsame' : SameLetters xs' ys') : SameRange xs' ys' part part' := by
  obtain ⟨before, after, before', after', hpart, hpart', hlen, hpartlen⟩ := h
  obtain ⟨first, rfl⟩ := hxs
  obtain ⟨first', rfl⟩ := hys
  have hfirst := (hsame'.of_append hsame).byteLength_eq
  refine ⟨first ++ before, after, first' ++ before', after', ?_, ?_, ?_, hpartlen⟩
  · rw [hpart, List.append_assoc]
  · rw [hpart', List.append_assoc]
  · rw [byteLength_append, byteLength_append, hfirst, hlen]

/-- A range of two trimmed texts is one of the texts. -/
theorem of_trimBy {p : Char → Bool} (hp : CaseBlind p)
    (h : SameRange (trimBy p xs) (trimBy p ys) part part') (hsame : SameLetters xs ys) :
    SameRange xs ys part part' := by
  have hinside (cs : List Char) : trimBy p cs <+: cs.dropWhile p := List.rdropWhile_prefix p _
  exact (h.of_prefix (hinside xs) (hinside ys)).of_suffix (List.dropWhile_suffix p)
    (List.dropWhile_suffix p) (hsame.dropWhile hp) hsame

end SameRange

/-- A part that is taken of each of two texts, and what follows it: both have the same letters in both
texts, and the parts stand in the same bytes. -/
structure Taken (xs ys : List Char) (found found' : List Char × List Char) : Prop where
  /-- The parts. -/
  part : SameLetters found.1 found'.1
  /-- What follows them. -/
  rest : SameLetters found.2 found'.2
  /-- What follows the part of the first text ends that text. -/
  suffix : found.2 <:+ xs
  /-- What follows the part of the second text ends that text. -/
  suffix' : found'.2 <:+ ys
  /-- Where the parts stand. -/
  range : SameRange xs ys found.1 found'.1

namespace Taken

variable {xs ys xs' ys' : List Char} {found found' : List Char × List Char}

/-- Parts with the same text behind them, up to the case. -/
theorem of_append (between : List Char) (hxs : xs = found.1 ++ (between ++ found.2))
    (hys : ys = found'.1 ++ (between ++ found'.2)) (hpart : SameLetters found.1 found'.1)
    (hrest : SameLetters found.2 found'.2) : Taken xs ys found found' where
  part := hpart
  rest := hrest
  suffix := ⟨found.1 ++ between, by rw [hxs, List.append_assoc]⟩
  suffix' := ⟨found'.1 ++ between, by rw [hys, List.append_assoc]⟩
  range := ⟨[], between ++ found.2, [], between ++ found'.2, hxs, hys, rfl, hpart.byteLength_eq⟩

theorem of_suffix (h : Taken xs ys found found') (hxs : xs <:+ xs') (hys : ys <:+ ys')
    (hsame : SameLetters xs ys) (hsame' : SameLetters xs' ys') : Taken xs' ys' found found' where
  part := h.part
  rest := h.rest
  suffix := h.suffix.trans hxs
  suffix' := h.suffix'.trans hys
  range := h.range.of_suffix hxs hys hsame hsame'

theorem rel_of_suffix {found? found?' : Option (List Char × List Char)}
    (h : Option.Rel (Taken xs ys) found? found?') (hxs : xs <:+ xs') (hys : ys <:+ ys')
    (hsame : SameLetters xs ys) (hsame' : SameLetters xs' ys') :
    Option.Rel (Taken xs' ys') found? found?' := by
  cases h with
  | none => exact .none
  | some htaken => exact .some (htaken.of_suffix hxs hys hsame hsame')

end Taken

/-- Two texts of the same letters are split alike at a character that is no letter. -/
theorem SameLetters.splitAt? {xs ys : List Char} (h : SameLetters xs ys) {d : Char}
    (hd : d.isLower = false) (hd' : d.toLower = d) :
    Option.Rel (Taken xs ys) (splitAt? d xs) (splitAt? d ys) := by
  have htake := h.takeWhile (caseBlind_ne hd hd')
  have hdrop := h.dropWhile (caseBlind_ne hd hd')
  have hxs := List.takeWhile_append_dropWhile (p := (· ≠ d)) (l := xs)
  have hys := List.takeWhile_append_dropWhile (p := (· ≠ d)) (l := ys)
  rw [BodyText.splitAt?, BodyText.splitAt?]
  cases hrest : xs.dropWhile (· ≠ d) with
  | nil =>
    rw [hdrop.eq_nil_iff.1 hrest]
    exact .none
  | cons c after =>
    have hhead := List.head?_dropWhile_not (· ≠ d) xs
    simp only [hrest, List.head?_cons] at hhead
    obtain rfl : c = d := by simpa using hhead
    rw [hrest] at hdrop hxs
    obtain ⟨after', hrest', hafter⟩ := hdrop.exists_cons_of_ne hd hd'
    rw [hrest'] at hys ⊢
    exact .some (.of_append [c] hxs.symm hys.symm htake hafter)

namespace Tag

/-! ### Attributes -/

variable {xs ys : List Char}

/-- Two texts of the same letters start with values alike. -/
theorem readValue?_sameLetters (h : SameLetters xs ys) :
    Option.Rel (Taken xs ys) (readValue? xs) (readValue? ys) := by
  cases xs with
  | nil =>
    rw [h.eq_nil_iff.1 rfl]
    exact .some (.of_append [] rfl rfl (.refl []) (.refl []))
  | cons c cs =>
    by_cases hquote : c = '"' ∨ c = '\''
    · have hc : c.isLower = false ∧ c.toLower = c := by
        rcases hquote with rfl | rfl <;> decide
      obtain ⟨ds, rfl, hrest⟩ := h.exists_cons_of_ne hc.1 hc.2
      rw [readValue?, if_pos hquote, readValue?, if_pos hquote]
      exact Taken.rel_of_suffix (hrest.splitAt? hc.1 hc.2) (List.suffix_cons c cs)
        (List.suffix_cons c ds) hrest h
    · obtain ⟨d, ds, rfl, hcd, -⟩ := h.exists_cons
      have hquote' : ¬ (d = '"' ∨ d = '\'') := by
        rintro (rfl | rfl)
        · exact hquote (.inl (eq_of_toLower rfl hcd))
        · exact hquote (.inr (eq_of_toLower rfl hcd))
      rw [readValue?, if_neg hquote, readValue?, if_neg hquote']
      have hword (cs : List Char) :
          cs = cs.takeWhile (!isBlank ·) ++ ([] ++ cs.dropWhile (!isBlank ·)) :=
        List.takeWhile_append_dropWhile.symm
      exact .some (.of_append [] (hword _) (hword _) (h.takeWhile caseBlind_isBlank.not)
        (h.dropWhile caseBlind_isBlank.not))

/-- Behind names of the same letters, values are assigned alike. -/
theorem readAssigned?_sameLetters (h : SameLetters xs ys) :
    Option.Rel (Taken xs ys) (readAssigned? xs) (readAssigned? ys) := by
  by_cases hequals : ∃ cs, xs = '=' :: cs
  · obtain ⟨cs, rfl⟩ := hequals
    obtain ⟨ds, rfl, hrest⟩ := h.exists_cons_of_ne rfl rfl
    have hbehind := hrest.dropWhile caseBlind_isBlank
    rw [readAssigned?, readAssigned?]
    apply Taken.rel_of_suffix (readValue?_sameLetters hbehind) _ _ hbehind h
    · exact (List.dropWhile_suffix _).trans (List.suffix_cons '=' cs)
    · exact (List.dropWhile_suffix _).trans (List.suffix_cons '=' ds)
  · have hxs : ∀ c ∈ xs.head?, c ≠ '=' := by
      rintro c hc rfl
      exact hequals (List.head?_eq_some_iff.1 hc)
    have hys : ∀ d ∈ ys.head?, d ≠ '=' := by
      rintro d hd rfl
      obtain ⟨ds, rfl⟩ := List.head?_eq_some_iff.1 hd
      obtain ⟨cs, rfl, -⟩ := h.symm.exists_cons_of_ne rfl rfl
      exact hequals ⟨cs, rfl⟩
    rw [readAssigned?_of_ne hxs, readAssigned?_of_ne hys]
    exact .some (.of_append [] rfl rfl (.refl []) h)

/-- Two attributes, each in its text: they have the same name, and their values stand in the same bytes
and have the same letters. -/
structure AttributesAlike (xs ys : List Char) (a a' : Attribute) : Prop where
  /-- The names. -/
  name : a.name = a'.name
  /-- The values. -/
  value : SameLetters a.value.toList a'.value.toList
  /-- Where the values stand. -/
  range : SameRange xs ys a.value.toList a'.value.toList

theorem lowered_eq_of_sameLetters (h : SameLetters xs ys) : lowered xs = lowered ys :=
  congrArg String.ofList h

theorem attribute?_sameLetters {name name' : List Char} {found found' : List Char × List Char}
    (hname : SameLetters name name') (htaken : Taken xs ys found found') :
    Option.Rel (AttributesAlike xs ys) (attribute? name found.1) (attribute? name' found'.1) := by
  have htrim := hname.trimEndBy caseBlind_isSpace
  have hslash {cs ds : List Char} (h : SameLetters cs ds) (hcs : cs = ['/']) : ds = ['/'] := by
    subst hcs
    obtain ⟨rest, rfl, hrest⟩ := h.exists_cons_of_ne rfl rfl
    rw [hrest.eq_nil_iff.1 rfl]
  have hiff : trimEndBy isSpace name = ['/'] ∧ found.1 = [] ↔
      trimEndBy isSpace name' = ['/'] ∧ found'.1 = [] := by
    rw [htaken.part.eq_nil_iff]
    exact and_congr_left' ⟨hslash htrim, hslash htrim.symm⟩
  rw [attribute?, attribute?]
  by_cases hnone : trimEndBy isSpace name = ['/'] ∧ found.1 = []
  · rw [if_pos hnone, if_pos (hiff.1 hnone)]
    exact .none
  · rw [if_neg hnone, if_neg (mt hiff.2 hnone)]
    refine .some ⟨lowered_eq_of_sameLetters htrim, ?_, ?_⟩
    · simpa using htaken.part
    · simpa using htaken.range

/-- **Attributes are read alike** of two texts of the same letters. -/
theorem readAttributes_sameLetters (h : SameLetters xs ys) :
    List.Forall₂ (AttributesAlike xs ys) (readAttributes xs).1 (readAttributes ys).1 ∧
      (readAttributes xs).2 = (readAttributes ys).2 := by
  -- by induction on the attributes of the first text
  induction xs using readAttributes.induct generalizing ys with
  | case1 xs hnil _ =>
    have hdrop := h.dropWhile caseBlind_isBlank
    rw [hnil] at hdrop
    rw [readAttributes_of_nil hnil, readAttributes_of_nil (hdrop.eq_nil_iff.1 rfl)]
    exact ⟨.nil, rfl⟩
  | case2 xs c rest hcons _ hnone _ =>
    have hdrop := h.dropWhile caseBlind_isBlank
    rw [hcons] at hdrop
    obtain ⟨d, rest', hcons', -⟩ := hdrop.exists_cons
    rw [hcons'] at hdrop
    have hvalue := readAssigned?_sameLetters
      ((hdrop.dropWhile caseBlind_isNameChar).dropWhile caseBlind_isBlank)
    rw [hnone] at hvalue
    generalize hfound' : readAssigned? (((d :: rest').dropWhile isNameChar).dropWhile isBlank) =
      found' at hvalue
    cases hvalue with
    | none =>
      rw [readAttributes_of_unclosed hcons hnone, readAttributes_of_unclosed hcons' hfound']
      exact ⟨.nil, rfl⟩
  | case3 xs c rest hcons _ value after hsome _ ih =>
    have hdrop := h.dropWhile caseBlind_isBlank
    rw [hcons] at hdrop
    obtain ⟨d, rest', hcons', -⟩ := hdrop.exists_cons
    rw [hcons'] at hdrop
    have hbehind := (hdrop.dropWhile caseBlind_isNameChar).dropWhile caseBlind_isBlank
    have hvalue := readAssigned?_sameLetters hbehind
    rw [hsome] at hvalue
    generalize hfound' : readAssigned? (((d :: rest').dropWhile isNameChar).dropWhile isBlank) =
      found' at hvalue
    cases hvalue with
    | @some _ found' htaken =>
      have hsuffix {cs tail : List Char} {e : Char} (h : cs.dropWhile isBlank = e :: tail) :
          ((e :: tail).dropWhile isNameChar).dropWhile isBlank <:+ cs :=
        (List.dropWhile_suffix _).trans
          ((List.dropWhile_suffix _).trans (h ▸ List.dropWhile_suffix _))
      have htaken := htaken.of_suffix (hsuffix hcons) (hsuffix hcons') hbehind h
      have hfirst := attribute?_sameLetters (hdrop.takeWhile caseBlind_isNameChar) htaken
      obtain ⟨hlater, hclosed⟩ := ih htaken.rest
      rw [readAttributes_of_cons hcons hsome, readAttributes_of_cons hcons' hfound']
      refine ⟨List.rel_append ?_ ?_, hclosed⟩
      · generalize attribute? ((c :: rest).takeWhile isNameChar) value = first at hfirst
        generalize attribute? ((d :: rest').takeWhile isNameChar) found'.1 = first' at hfirst
        cases hfirst with
        | none => exact .nil
        | some hfirst => exact .cons hfirst .nil
      · refine hlater.imp fun a a' ha => ⟨ha.name, ha.value, ?_⟩
        exact ha.range.of_suffix htaken.suffix htaken.suffix' htaken.rest h

/-! ### Tags -/

/-- The name of a tag depends on no case. -/
theorem readName_sameLetters {word word' rest rest' : List Char} (hword : SameLetters word word')
    (hrest : SameLetters rest rest') : readName word rest = readName word' rest' := by
  have hlast {cs ds : List Char} (h : SameLetters cs ds) (hcs : cs.getLast? = some '/') :
      ds.getLast? = some '/' := by
    rw [← List.head?_reverse] at hcs ⊢
    obtain ⟨tail, htail⟩ := List.head?_eq_some_iff.1 hcs
    have hreverse := h.reverse
    rw [htail] at hreverse
    obtain ⟨tail', htail', -⟩ := hreverse.exists_cons_of_ne rfl rfl
    rw [htail']
    rfl
  have hiff : rest = [] ∧ 1 < word.length ∧ word.getLast? = some '/' ↔
      rest' = [] ∧ 1 < word'.length ∧ word'.getLast? = some '/' := by
    rw [hrest.eq_nil_iff, hword.length_eq]
    exact and_congr_right' (and_congr_right' ⟨hlast hword, hlast hword.symm⟩)
  have hdropLast : SameLetters word.dropLast word'.dropLast := by
    rw [SameLetters, lower, lower, List.map_dropLast, List.map_dropLast]
    exact congrArg List.dropLast hword
  rw [readName, readName]
  by_cases hslash : rest = [] ∧ 1 < word.length ∧ word.getLast? = some '/'
  · rw [if_pos hslash, if_pos (hiff.1 hslash), lowered_eq_of_sameLetters hdropLast]
  · rw [if_neg hslash, if_neg (mt hiff.2 hslash), lowered_eq_of_sameLetters hword]

/-- A tag has a value for the names of its attributes. -/
theorem isSome_value?_iff {tag : Tag} {name : String} :
    (tag.value? name).isSome = true ↔ name ∈ tag.attributes.map Attribute.name := by
  rw [value?, Option.isSome_map, List.find?_isSome]
  simp

/-- Two tags, each in its text, that are the same but for the case of letters in values: both have the
same name and the same names of attributes in their order, each value stands in the same bytes as the
other and has the same letters; and so both do the same, and have values for the same names. -/
structure Alike (text text' : List Char) (tag tag' : Tag) : Prop where
  /-- The names of the tags. -/
  name : tag.name = tag'.name
  /-- The names of the attributes. -/
  names : tag.attributes.map Attribute.name = tag'.attributes.map Attribute.name
  /-- The values. -/
  values : List.Forall₂ (AttributesAlike text text') tag.attributes tag'.attributes
  /-- What the tags do. -/
  action : Action.ofName? tag.name = Action.ofName? tag'.name
  /-- The names that have a value. -/
  presence : ∀ name, (tag.value? name).isSome = (tag'.value? name).isSome

theorem alike_of_forall₂ {text text' : List Char} {tag tag' : Tag} (hname : tag.name = tag'.name)
    (hattributes : List.Forall₂ (AttributesAlike text text') tag.attributes tag'.attributes) :
    Alike text text' tag tag' := by
  have hnames : tag.attributes.map Attribute.name = tag'.attributes.map Attribute.name := by
    rw [← List.forall₂_eq_eq_eq, List.forall₂_map_left_iff, List.forall₂_map_right_iff]
    exact hattributes.imp fun a a' ha => ha.name
  refine ⟨hname, hnames, hattributes, by rw [hname], fun name => ?_⟩
  rw [Bool.eq_iff_iff, isSome_value?_iff, isSome_value?_iff, hnames]

/-- Two readings of the same kind, with tags alike. -/
inductive ReadingsAlike (text text' : List Char) : Reading → Reading → Prop
  /-- No tag. -/
  | nothing : ReadingsAlike text text' .nothing .nothing
  /-- A tag. -/
  | complete {tag tag' : Tag} : Alike text text' tag tag' →
      ReadingsAlike text text' (.complete tag) (.complete tag')
  /-- A tag up to a quote that never closes. -/
  | unclosed {tag tag' : Tag} : Alike text text' tag tag' →
      ReadingsAlike text text' (.unclosed tag) (.unclosed tag')

theorem read_of_nothing {cs : List Char}
    (h : trimBy isBlank cs = [] ∨ ∃ rest, trimBy isBlank cs = '!' :: rest) :
    read cs = .nothing := by
  rcases h with hnil | ⟨rest, hrest⟩
  · rw [read, hnil]
  · rw [read, hrest]
    rfl

/-- **Tags are read alike** of two texts that are the same but for the case of ASCII letters. -/
theorem read_alike {text text' : List Char} (h : lower text = lower text') :
    ReadingsAlike text text' (read text) (read text') := by
  have hsame : SameLetters text text' := h
  have htrim : SameLetters (trimBy isBlank text) (trimBy isBlank text') :=
    (hsame.dropWhile caseBlind_isBlank).trimEndBy caseBlind_isBlank
  cases hchars : trimBy isBlank text with
  | nil =>
    rw [hchars] at htrim
    rw [read_of_nothing (.inl hchars), read_of_nothing (.inl (htrim.eq_nil_iff.1 rfl))]
    exact .nothing
  | cons c cs =>
    by_cases hc : c = '!'
    · rw [hchars, hc] at htrim
      obtain ⟨ds, hchars', -⟩ := htrim.exists_cons_of_ne rfl rfl
      rw [read_of_nothing (.inr ⟨cs, hc ▸ hchars⟩), read_of_nothing (.inr ⟨ds, hchars'⟩)]
      exact .nothing
    · have htext := htrim
      rw [hchars] at htext
      obtain ⟨d, ds, hchars', hcd, -⟩ := htext.exists_cons
      rw [hchars'] at htext
      have hd : d ≠ '!' := by
        rintro rfl
        exact hc (eq_of_toLower rfl hcd)
      have hrest := htext.dropWhile caseBlind_isBlank.not
      have hname := readName_sameLetters (htext.takeWhile caseBlind_isBlank.not) hrest
      obtain ⟨hattributes, hclosed⟩ := readAttributes_sameLetters hrest
      -- the attributes stand behind the first word of the trimmed text
      have halike := hattributes.imp (S := AttributesAlike text text') fun a a' ha => by
        refine ⟨ha.name, ha.value, ?_⟩
        apply SameRange.of_trimBy caseBlind_isBlank _ hsame
        rw [hchars, hchars']
        exact ha.range.of_suffix (List.dropWhile_suffix _) (List.dropWhile_suffix _) hrest htext
      rw [read_of_attributes hchars hc rfl, read_of_attributes hchars' hd rfl, hname, ← hclosed]
      cases (readAttributes ((c :: cs).dropWhile (!isBlank ·))).2 with
      | true => exact .complete (alike_of_forall₂ rfl halike)
      | false => exact .unclosed (alike_of_forall₂ rfl halike)

/-- A tag with a value in quotes, in upper and in lower case. -/
theorem read_alike_of_links :
    lower ['A', ' ', 'H', 'R', 'E', 'F', '=', '"', 'X', '"'] =
        lower ['a', ' ', 'h', 'r', 'e', 'f', '=', '"', 'x', '"'] ∧
      ReadingsAlike ['A', ' ', 'H', 'R', 'E', 'F', '=', '"', 'X', '"']
        ['a', ' ', 'h', 'r', 'e', 'f', '=', '"', 'x', '"']
        (.complete ⟨"a", [⟨"href", "X"⟩]⟩) (.complete ⟨"a", [⟨"href", "x"⟩]⟩) := by
  have h : lower ['A', ' ', 'H', 'R', 'E', 'F', '=', '"', 'X', '"'] =
      lower ['a', ' ', 'h', 'r', 'e', 'f', '=', '"', 'x', '"'] := by decide
  have hread : read ['A', ' ', 'H', 'R', 'E', 'F', '=', '"', 'X', '"'] =
      .complete ⟨"a", [⟨"href", "X"⟩]⟩ := by cbv
  have hread' : read ['a', ' ', 'h', 'r', 'e', 'f', '=', '"', 'x', '"'] =
      .complete ⟨"a", [⟨"href", "x"⟩]⟩ := by cbv
  have halike := read_alike h
  rw [hread, hread'] at halike
  exact ⟨h, halike⟩

end Tag

end BodyText
