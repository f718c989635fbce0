import BodyText.Markup.Tag
import BodyText.Proofs.Marks
import Mathlib.Data.List.DropRight

/-!
# Tags as they are written

A tag that is written in order is read back: its name and its attributes in lower case, and the values as
they stand (`Tag.Written.read_chars`). What may be written is made up of parts that carry their own
conditions: blanks, the name of an attribute (`Tag.AttributeName`), what follows the name
(`Tag.Assignment`), and what the tag ends with (`Tag.Ending`).
-/

namespace BodyText

/-! ### Trimming -/

/-- The end of a text is trimmed up to the last character that stays. -/
theorem trimEndBy_append_cons {p : Char → Bool} {c : Char} (hc : p c = false)
    (xs ys : List Char) : trimEndBy p (xs ++ c :: ys) = xs ++ c :: trimEndBy p ys := by
  change (xs ++ c :: ys).rdropWhile p = xs ++ c :: ys.rdropWhile p
  induction ys using List.reverseRecOn with
  | nil => exact List.rdropWhile_concat_neg p xs c (by simp [hc])
  | append_singleton ys y ih =>
    rw [← List.cons_append, ← List.append_assoc, List.rdropWhile_concat, List.rdropWhile_concat, ih]
    split
    · rfl
    · simp

/-- A word that stands before something else is taken off it. -/
theorem takeWhile_dropWhile_append {α : Type} {p : α → Bool} {xs ys : List α}
    (hxs : ∀ x ∈ xs, p x = true) (hys : ∀ y ∈ ys.head?, p y = false) :
    (xs ++ ys).takeWhile p = xs ∧ (xs ++ ys).dropWhile p = ys := by
  rw [List.takeWhile_append_of_pos hxs, List.dropWhile_append_of_pos hxs]
  cases ys with
  | nil => exact ⟨List.append_nil xs, rfl⟩
  | cons y ys =>
    have hy : ¬ p y = true := by simp [hys y rfl]
    rw [List.takeWhile_cons_of_neg hy, List.dropWhile_cons_of_neg hy]
    exact ⟨List.append_nil xs, rfl⟩

namespace Tag

/-- Blanks before the attributes of a text make no difference. -/
theorem readAttributes_dropWhile (cs : List Char) :
    readAttributes (cs.dropWhile isBlank) = readAttributes cs := by
  have hdrop := List.dropWhile_idempotent isBlank cs
  cases h : cs.dropWhile isBlank with
  | nil => rw [readAttributes_of_nil h, readAttributes_of_nil rfl]
  | cons c rest =>
    rw [h] at hdrop
    cases h' : readAssigned? (((c :: rest).dropWhile isNameChar).dropWhile isBlank) with
    | none => rw [readAttributes_of_unclosed h h', readAttributes_of_unclosed hdrop h']
    | some found => rw [readAttributes_of_cons h h', readAttributes_of_cons hdrop h']

/-! ### The parts of a tag -/

/-- Some blanks. -/
structure Blanks where
  /-- The characters. -/
  chars : List Char
  /-- Each of them is blank. -/
  blank : ∀ c ∈ chars, isBlank c = true

/-- What an attribute can be named. -/
structure AttributeName where
  /-- The characters. -/
  chars : List Char
  /-- There is a character. -/
  ne_nil : chars ≠ []
  /-- None of them is blank or a `=`. -/
  isName : ∀ c ∈ chars, isNameChar c = true
  /-- The last one is no Unicode white space. -/
  trimmed : ∀ c ∈ chars.getLast?, isSpace c = false

/-- Either quote. -/
inductive Quote where
  /-- The quote `"`. -/
  | double
  /-- The quote `'`. -/
  | single
  deriving DecidableEq, Repr

/-- The character of a quote. -/
def Quote.char : Quote → Char
  | double => '"'
  | single => '\''

/-- What follows the name of an attribute. -/
inductive Assignment where
  /-- Nothing. -/
  | bare
  /-- A value without quotes. -/
  | plain (before after : Blanks) (value : List Char) (ne_nil : value ≠ [])
      (solid : ∀ c ∈ value, isBlank c = false)
      (unquoted : ∀ c ∈ value.head?, c ≠ '"' ∧ c ≠ '\'')
  /-- A value in quotes. -/
  | quoted (before after : Blanks) (quote : Quote) (value : List Char)
      (quotable : quote.char ∉ value)

namespace Assignment

/-- The value that the attribute has. -/
def value : Assignment → List Char
  | bare => []
  | plain _ _ value _ _ _ => value
  | quoted _ _ _ value _ => value

/-- How the assignment is written. -/
def chars : Assignment → List Char
  | bare => []
  | plain before after value _ _ _ => before.chars ++ '=' :: (after.chars ++ value)
  | quoted before after quote value _ =>
    before.chars ++ '=' :: (after.chars ++ quote.char :: (value ++ [quote.char]))

end Assignment

/-- An attribute as it can be written. -/
structure WrittenAttribute where
  /-- The blanks before it. -/
  gap : Blanks
  /-- There is a blank before it. -/
  gap_ne_nil : gap.chars ≠ []
  /-- The name. -/
  name : AttributeName
  /-- The value. -/
  assignment : Assignment
  /-- It is no slash alone, which is no attribute. -/
  ne_slash : ¬ (name.chars = ['/'] ∧ assignment.value = [])

namespace WrittenAttribute

/-- How the attribute is written. -/
def chars (a : WrittenAttribute) : List Char :=
  a.gap.chars ++ (a.name.chars ++ a.assignment.chars)

/-- The attribute that is written. -/
def toAttribute (a : WrittenAttribute) : Attribute :=
  ⟨lowered a.name.chars, String.ofList a.assignment.value⟩

end WrittenAttribute

/-- What a tag ends with, behind its attributes. -/
inductive Ending where
  /-- Nothing more. -/
  | plain
  /-- A slash. -/
  | slash (gap : Blanks) (gap_ne_nil : gap.chars ≠ [])
  /-- An attribute whose value stands behind a quote that never closes. -/
  | unclosed (gap : Blanks) (gap_ne_nil : gap.chars ≠ []) (name : AttributeName)
      (before after : Blanks) (quote : Quote) (value : List Char) (endless : quote.char ∉ value)

namespace Ending

/-- How the ending is written. -/
def chars : Ending → List Char
  | plain => []
  | slash gap _ => gap.chars ++ ['/']
  | unclosed gap _ name before after quote value _ =>
    gap.chars ++ (name.chars ++ (before.chars ++ '=' :: (after.chars ++ quote.char :: value)))

/-- Whether every quote closes. -/
def isClosed : Ending → Bool
  | plain | slash _ _ => true
  | unclosed .. => false

end Ending

/-- A tag as it can be written. -/
structure Written where
  /-- The blanks before the tag. -/
  before : Blanks
  /-- The name. -/
  name : List Char
  /-- There is a name. -/
  ne_nil : name ≠ []
  /-- No character of the name is blank. -/
  solid : ∀ c ∈ name, isBlank c = false
  /-- The tag is no declaration. -/
  head_ne : name.head? ≠ some '!'
  /-- The name does not end with the slash that closes a tag. -/
  last_ne : name.getLast? ≠ some '/'
  /-- The attributes. -/
  attributes : List WrittenAttribute
  /-- What the tag ends with. -/
  ending : Ending
  /-- The blanks behind the tag. -/
  after : Blanks

namespace Written

/-- How the tag is written. -/
def chars (t : Written) : List Char :=
  t.before.chars ++
    (t.name ++ (t.attributes.flatMap WrittenAttribute.chars ++ (t.ending.chars ++ t.after.chars)))

/-- The tag that is written, with all attributes that are. -/
def tag (t : Written) : Tag :=
  ⟨lowered t.name, t.attributes.map WrittenAttribute.toAttribute⟩

/-- What the tag is to be read as. -/
def reading (t : Written) : Reading :=
  if t.ending.isClosed then .complete t.tag else .unclosed t.tag

end Written

/-! ### What stands behind an attribute -/

theorem isBlank_of_isNameChar {c : Char} (h : isNameChar c = true) : isBlank c = false := by
  rw [isNameChar, Bool.and_eq_true] at h
  simpa using h.1

/-- What may stand behind an attribute: nothing, or something behind a blank that is no `=`. -/
def Apart (cs : List Char) : Prop :=
  (∀ c ∈ cs.head?, isBlank c = true) ∧ ∀ c ∈ (cs.dropWhile isBlank).head?, c ≠ '='

theorem Apart.head_not_isNameChar {cs : List Char} (h : Apart cs) :
    ∀ c ∈ cs.head?, isNameChar c = false := by
  intro c hc
  have hblank := h.1 c hc
  simp [isNameChar, hblank]

theorem Blanks.dropWhile_append (gap : Blanks) {cs : List Char}
    (h : ∀ c ∈ cs.head?, isBlank c = false) : (gap.chars ++ cs).dropWhile isBlank = cs :=
  (takeWhile_dropWhile_append gap.blank h).2

theorem Blanks.apart_append {gap : Blanks} (hgap : gap.chars ≠ []) {cs : List Char}
    (hcs : ∀ c ∈ cs.head?, isNameChar c = true) : Apart (gap.chars ++ cs) := by
  constructor
  · obtain ⟨b, bs, hchars⟩ := List.exists_cons_of_ne_nil hgap
    have hb := gap.blank b (hchars ▸ List.mem_cons_self)
    simpa [hchars] using hb
  · rw [gap.dropWhile_append fun c hc => isBlank_of_isNameChar (hcs c hc)]
    rintro c hc rfl
    exact Bool.false_ne_true (hcs _ hc)

theorem AttributeName.head_append (name : AttributeName) (cs : List Char) :
    ∀ c ∈ (name.chars ++ cs).head?, isNameChar c = true := by
  obtain ⟨first, rest, hchars⟩ := List.exists_cons_of_ne_nil name.ne_nil
  intro c hc
  rw [hchars, List.cons_append, List.head?_cons, Option.mem_some_iff] at hc
  exact name.isName c (hc ▸ hchars ▸ List.mem_cons_self)

theorem WrittenAttribute.apart (a : WrittenAttribute) (cs : List Char) : Apart (a.chars ++ cs) := by
  rw [chars, List.append_assoc, List.append_assoc]
  exact Blanks.apart_append a.gap_ne_nil (a.name.head_append _)

/-! ### Reading the attributes -/

theorem Quote.isBlank_char (q : Quote) : isBlank q.char = false := by
  cases q <;> decide

/-- A value in quotes is read up to the next quote of its kind. -/
theorem readValue?_quote (q : Quote) (cs : List Char) :
    readValue? (q.char :: cs) = splitAt? q.char cs := by
  rw [readValue?, if_pos]
  cases q with
  | double => exact .inl rfl
  | single => exact .inr rfl

/-- A value is read as it is written, whatever stands behind it. -/
theorem readAssigned?_chars_append (a : Assignment) {cs : List Char} (hcs : Apart cs) :
    ∃ rest, readAssigned? ((a.chars ++ cs).dropWhile isBlank) = some (a.value, rest) ∧
      readAttributes rest = readAttributes cs := by
  cases a with
  | bare =>
    exact ⟨cs.dropWhile isBlank, readAssigned?_of_ne hcs.2, readAttributes_dropWhile cs⟩
  | plain before after value hne hsolid hunquoted =>
    refine ⟨cs, ?_, rfl⟩
    obtain ⟨first, rest, rfl⟩ := List.exists_cons_of_ne_nil hne
    have hfirst := hunquoted first rfl
    have hparts : ((first :: rest) ++ cs).takeWhile (!isBlank ·) = first :: rest ∧
        ((first :: rest) ++ cs).dropWhile (!isBlank ·) = cs :=
      takeWhile_dropWhile_append (fun c hc => by simp [hsolid c hc])
        (fun c hc => by simp [hcs.1 c hc])
    rw [Assignment.chars, Assignment.value, List.append_assoc, List.cons_append, List.append_assoc,
      before.dropWhile_append (by simp [isBlank]), readAssigned?,
      after.dropWhile_append (by simp [hsolid first List.mem_cons_self]), List.cons_append,
      readValue?, if_neg (not_or.2 hfirst), ← List.cons_append, hparts.1, hparts.2]
  | quoted before after quote value hquotable =>
    refine ⟨cs, ?_, rfl⟩
    have hchars : (before.chars ++ '=' :: (after.chars ++ quote.char :: (value ++ [quote.char]))) ++
        cs = before.chars ++ '=' :: (after.chars ++ quote.char :: (value ++ quote.char :: cs)) := by
      simp
    rw [Assignment.chars, Assignment.value, hchars, before.dropWhile_append (by simp [isBlank]),
      readAssigned?, after.dropWhile_append (by simp [quote.isBlank_char]), readValue?_quote]
    exact splitAt?_of_not_mem hquotable cs

/-- What a name that stands behind blanks is read as, and what follows it. -/
theorem AttributeName.read (name : AttributeName) (gap : Blanks) {cs : List Char}
    (hcs : ∀ c ∈ cs.head?, isNameChar c = false) :
    ∃ first rest, (gap.chars ++ (name.chars ++ cs)).dropWhile isBlank = first :: rest ∧
      (first :: rest).takeWhile isNameChar = name.chars ∧
      (first :: rest).dropWhile isNameChar = cs := by
  obtain ⟨first, rest, hchars⟩ := List.exists_cons_of_ne_nil name.ne_nil
  obtain ⟨htake, hdrop⟩ := takeWhile_dropWhile_append name.isName hcs
  rw [hchars, List.cons_append] at htake hdrop
  refine ⟨first, rest ++ cs, ?_, htake.trans hchars.symm, hdrop⟩
  rw [hchars, List.cons_append]
  apply gap.dropWhile_append
  rintro c hc
  obtain rfl := Option.some.inj hc
  exact isBlank_of_isNameChar (name.isName _ (hchars ▸ List.mem_cons_self))

/-- A name ends before a `=`, with or without blanks before it. -/
theorem Blanks.head_append_equals (gap : Blanks) (cs : List Char) :
    ∀ c ∈ (gap.chars ++ '=' :: cs).head?, isNameChar c = false := by
  intro c hc
  cases hgap : gap.chars with
  | nil =>
    rw [hgap] at hc
    obtain rfl := Option.some.inj hc
    rfl
  | cons b bs =>
    rw [hgap] at hc
    obtain rfl := Option.some.inj hc
    simp [isNameChar, gap.blank _ (hgap ▸ List.mem_cons_self)]

theorem Assignment.head_append (a : Assignment) {cs : List Char} (hcs : Apart cs) :
    ∀ c ∈ (a.chars ++ cs).head?, isNameChar c = false := by
  cases a with
  | bare => exact hcs.head_not_isNameChar
  | plain before after value _ _ _ =>
    rw [chars, List.append_assoc]
    exact before.head_append_equals _
  | quoted before after quote value _ =>
    rw [chars, List.append_assoc]
    exact before.head_append_equals _

theorem WrittenAttribute.attribute?_eq (a : WrittenAttribute) :
    attribute? a.name.chars a.assignment.value = some a.toAttribute := by
  have htrim : trimEndBy isSpace a.name.chars = a.name.chars := by
    refine List.rdropWhile_eq_self_iff.2 fun hne => ?_
    simp [a.name.trimmed _ (List.getLast_mem_getLast? hne)]
  rw [attribute?, htrim, if_neg a.ne_slash]
  rfl

/-- An attribute is read as it is written, before what stands behind it. -/
theorem readAttributes_append (a : WrittenAttribute) {cs : List Char} (hcs : Apart cs) :
    readAttributes (a.chars ++ cs) =
      (a.toAttribute :: (readAttributes cs).1, (readAttributes cs).2) := by
  obtain ⟨first, rest, hdrop, hname, hbehind⟩ :=
    a.name.read a.gap (a.assignment.head_append hcs)
  obtain ⟨more, hvalue, hmore⟩ := readAssigned?_chars_append a.assignment hcs
  rw [← hbehind] at hvalue
  rw [WrittenAttribute.chars, List.append_assoc, List.append_assoc,
    readAttributes_of_cons hdrop hvalue, hname, a.attribute?_eq, hmore]
  rfl

/-! ### Reading the ending -/

namespace Ending

/-- What is left of an ending where the blanks behind it are trimmed. -/
def trimmed : Ending → Blanks → List Char
  | plain, _ => []
  | slash gap _, _ => gap.chars ++ ['/']
  | unclosed gap _ name before after quote value _, behind =>
    gap.chars ++ (name.chars ++ (before.chars ++ '=' :: (after.chars ++
      quote.char :: trimEndBy isBlank (value ++ behind.chars))))

theorem apart_trimmed (e : Ending) (behind : Blanks) : Apart (e.trimmed behind) := by
  cases e with
  | plain => exact ⟨nofun, nofun⟩
  | slash gap hgap => exact Blanks.apart_append hgap (by simp [isNameChar, isBlank])
  | unclosed gap hgap name before after quote value _ =>
    exact Blanks.apart_append hgap (name.head_append _)

/-- No attribute is read of an ending. -/
theorem readAttributes_trimmed (e : Ending) (behind : Blanks) :
    readAttributes (e.trimmed behind) = ([], e.isClosed) := by
  cases e with
  | plain => exact readAttributes_of_nil rfl
  | slash gap _ =>
    have hdrop : (gap.chars ++ ['/']).dropWhile isBlank = ['/'] :=
      gap.dropWhile_append (by simp [isBlank])
    have hvalue : readAssigned? ((['/'].dropWhile isNameChar).dropWhile isBlank) =
        some ([], []) := rfl
    have hslash : attribute? (['/'].takeWhile isNameChar) [] = none := by decide
    rw [trimmed, readAttributes_of_cons hdrop hvalue, hslash, readAttributes_of_nil rfl]
    rfl
  | unclosed gap _ name before after quote value hendless =>
    obtain ⟨first, rest, hdrop, -, hbehind⟩ := name.read gap (before.head_append_equals
      (after.chars ++ quote.char :: trimEndBy isBlank (value ++ behind.chars)))
    have hno : quote.char ∉ trimEndBy isBlank (value ++ behind.chars) := by
      intro hmem
      rcases List.mem_append.1 ((List.rdropWhile_prefix isBlank _).subset hmem) with hvalue | hblank
      · exact hendless hvalue
      · exact Bool.false_ne_true (quote.isBlank_char.symm.trans (behind.blank _ hblank))
    apply readAttributes_of_unclosed hdrop
    rw [hbehind, before.dropWhile_append (by simp [isBlank]), readAssigned?,
      after.dropWhile_append (by simp [quote.isBlank_char]), readValue?_quote]
    exact splitAt?_eq_none_iff.2 hno

end Ending

/-! ### Reading the tag -/

/-- A text that ends with a character that is not blank. -/
def EndsSolid (cs : List Char) : Prop := ∃ xs c, cs = xs ++ [c] ∧ isBlank c = false

theorem EndsSolid.append {cs : List Char} (h : EndsSolid cs) (before : List Char) :
    EndsSolid (before ++ cs) := by
  obtain ⟨xs, c, rfl, hc⟩ := h
  exact ⟨before ++ xs, c, (List.append_assoc ..).symm, hc⟩

theorem endsSolid_of_forall {cs : List Char} (hne : cs ≠ [])
    (h : ∀ c ∈ cs, isBlank c = false) : EndsSolid cs :=
  ⟨cs.dropLast, cs.getLast hne, (List.dropLast_append_getLast hne).symm,
    h _ (List.getLast_mem hne)⟩

theorem WrittenAttribute.endsSolid (a : WrittenAttribute) : EndsSolid a.chars := by
  apply EndsSolid.append
  cases ha : a.assignment with
  | bare =>
    rw [Assignment.chars, List.append_nil]
    exact endsSolid_of_forall a.name.ne_nil fun c hc => isBlank_of_isNameChar (a.name.isName c hc)
  | plain before after value hne hsolid _ =>
    rw [Assignment.chars, ← List.singleton_append]
    exact ((((endsSolid_of_forall hne hsolid).append _).append _).append _).append _
  | quoted before after quote value _ =>
    refine ⟨a.name.chars ++ (before.chars ++ '=' :: (after.chars ++ quote.char :: value)),
      quote.char, ?_, quote.isBlank_char⟩
    simp [Assignment.chars]

namespace Written

variable (t : Written)

theorem endsSolid : EndsSolid (t.name ++ t.attributes.flatMap WrittenAttribute.chars) := by
  rcases List.eq_nil_or_concat t.attributes with hnil | ⟨before, last, hlast⟩
  · rw [hnil, List.flatMap_nil, List.append_nil]
    exact endsSolid_of_forall t.ne_nil t.solid
  · rw [hlast, List.concat_eq_append, List.flatMap_append, List.flatMap_singleton]
    exact (last.endsSolid.append _).append _

/-- The text of a tag without the blanks around it. -/
theorem trimBy_chars :
    trimBy isBlank t.chars =
      t.name ++ (t.attributes.flatMap WrittenAttribute.chars ++ t.ending.trimmed t.after) := by
  obtain ⟨first, rest, hname⟩ := List.exists_cons_of_ne_nil t.ne_nil
  have hfirst : ∀ c ∈ (t.name ++ (t.attributes.flatMap WrittenAttribute.chars ++
      (t.ending.chars ++ t.after.chars))).head?, isBlank c = false := by
    intro c hc
    rw [hname] at hc
    obtain rfl := Option.some.inj hc
    exact t.solid _ (hname ▸ List.mem_cons_self)
  have hafter : trimEndBy isBlank t.after.chars = [] := List.rdropWhile_eq_nil_iff.2 t.after.blank
  rw [trimBy, chars, t.before.dropWhile_append hfirst]
  cases t.ending with
  | plain =>
    obtain ⟨xs, c, hsolid, hc⟩ := t.endsSolid
    rw [Ending.chars, Ending.trimmed, List.nil_append, List.append_nil, ← List.append_assoc, hsolid,
      List.append_assoc, List.singleton_append, trimEndBy_append_cons hc, hafter]
  | slash gap _ =>
    have hsplit := trimEndBy_append_cons (p := isBlank) (c := '/') (by decide)
      (t.name ++ (t.attributes.flatMap WrittenAttribute.chars ++ gap.chars)) t.after.chars
    rw [hafter] at hsplit
    simpa [Ending.chars, Ending.trimmed] using hsplit
  | unclosed gap _ name before after quote value _ =>
    have hsplit := trimEndBy_append_cons quote.isBlank_char
      (t.name ++ (t.attributes.flatMap WrittenAttribute.chars ++ (gap.chars ++ (name.chars ++
        (before.chars ++ '=' :: after.chars))))) (value ++ t.after.chars)
    simpa [Ending.chars, Ending.trimmed] using hsplit

theorem apart_behind (attributes : List WrittenAttribute) (e : Ending) (behind : Blanks) :
    Apart (attributes.flatMap WrittenAttribute.chars ++ e.trimmed behind) := by
  cases attributes with
  | nil => exact e.apart_trimmed behind
  | cons a attributes =>
    rw [List.flatMap_cons, List.append_assoc]
    exact a.apart _

/-- The attributes are read as they are written, up to a quote that never closes. -/
theorem readAttributes_behind (attributes : List WrittenAttribute) (e : Ending)
    (behind : Blanks) :
    readAttributes (attributes.flatMap WrittenAttribute.chars ++ e.trimmed behind) =
      (attributes.map WrittenAttribute.toAttribute, e.isClosed) := by
  induction attributes with
  | nil => exact e.readAttributes_trimmed behind
  | cons a attributes ih =>
    rw [List.flatMap_cons, List.append_assoc, readAttributes_append a (apart_behind ..), ih]
    rfl

/-- **A tag is read as it is written**: the name in lower case, and exactly its attributes in their
order, each with its name in lower case and its value as it stands, whatever blanks are around them.
A quote that never closes ends the reading, and the attributes before it are kept. -/
theorem read_chars : read t.chars = t.reading := by
  obtain ⟨first, rest, hname⟩ := List.exists_cons_of_ne_nil t.ne_nil
  have hfirst : first ≠ '!' := by
    rintro rfl
    exact t.head_ne (by rw [hname]; rfl)
  have hapart := apart_behind t.attributes t.ending t.after
  have hattributes := readAttributes_behind t.attributes t.ending t.after
  have htrim := t.trimBy_chars
  generalize t.attributes.flatMap WrittenAttribute.chars ++ t.ending.trimmed t.after = behind
    at hapart hattributes htrim
  obtain ⟨hword, hrest⟩ : (t.name ++ behind).takeWhile (!isBlank ·) = t.name ∧
      (t.name ++ behind).dropWhile (!isBlank ·) = behind :=
    takeWhile_dropWhile_append (fun c hc => by simp [t.solid c hc])
      (fun c hc => by simp [hapart.1 c hc])
  rw [← hrest] at hattributes
  rw [hname, List.cons_append] at htrim hword hrest hattributes
  have hlast : ¬ (behind = [] ∧ 1 < t.name.length ∧ t.name.getLast? = some '/') :=
    fun h => t.last_ne h.2.2
  rw [read_of_attributes htrim hfirst hattributes, hword, hrest, ← hname, readName, if_neg hlast]
  rfl

/-- A value in quotes, and blanks in each place where they may be. -/
example :
    ∃ t : Written, t.chars = " A HREF\t= 'b \"c' / ".toList ∧
      t.reading = .complete ⟨"a", [⟨"href", "b \"c"⟩]⟩ := by
  let space : Blanks := ⟨[' '], by simp [isBlank]⟩
  let tab : Blanks := ⟨['\t'], by simp [isBlank]⟩
  let href : AttributeName :=
    ⟨['H', 'R', 'E', 'F'], by simp, by simp [isNameChar, isBlank], by simp [isSpace, spaceRanges]⟩
  let value : Assignment := .quoted tab space .single ['b', ' ', '"', 'c'] (by simp [Quote.char])
  exact ⟨⟨space, ['A'], by simp, by simp [isBlank], by simp, by simp,
    [⟨space, by simp [space], href, value, by simp [href]⟩], .slash space (by simp [space]), space⟩,
    rfl, rfl⟩

end Written

end Tag

end BodyText
