import BodyText.Known
import BodyText.Text.Blank
import BodyText.Text.Search

/-!
# Tags

The text between `<` and `>` is read as a tag: a name, then attributes. An attribute is a name
alone, or a name and a value behind `=`; the value stands in quotes of either kind or ends at the
next blank. Names are kept in lower case. A quote that never closes ends the reading, and the
attributes before it are kept.
-/

namespace BodyText

/-- An attribute of a tag. -/
structure Attribute where
  /-- The name, in lower case. -/
  name : String
  /-- The value as it was written; empty for a name alone. -/
  value : String
  deriving DecidableEq, Repr

/-- A tag. -/
structure Tag where
  /-- The name, in lower case; the name of a closing tag starts with `/`. -/
  name : String
  /-- The attributes in the order in which they were written. -/
  attributes : List Attribute
  deriving DecidableEq, Repr

namespace Tag

/-- The value of the first attribute of the given name. -/
def value? (tag : Tag) (name : String) : Option String :=
  (tag.attributes.find? fun a => a.name = name).map Attribute.value

/-- What the text of a tag turned out to be. -/
inductive Reading where
  /-- No text, or a declaration, which starts with `!`. -/
  | nothing
  /-- A tag. -/
  | complete (tag : Tag)
  /-- A tag up to a quote that never closes. -/
  | unclosed (tag : Tag)
  deriving DecidableEq, Repr

/-! ### The parts of a tag -/

/-- A text in lower case, as a string. -/
def lowered (cs : List Char) : String := String.ofList (cs.map Char.toLower)

/-- A character of an attribute's name. -/
def isNameChar (c : Char) : Bool := !isBlank c && c ≠ '='

/-- The value at the start of a text and what follows it; `none` when its quote never closes. -/
def readValue? : List Char → Option (List Char × List Char)
  | [] => some ([], [])
  | c :: cs =>
    if c = '"' ∨ c = '\'' then splitAt? c cs
    else some ((c :: cs).takeWhile (!isBlank ·), (c :: cs).dropWhile (!isBlank ·))

/-- The value that a name has, from the text behind the name and its blanks, and what follows it. A
name with no `=` behind it has the empty value. -/
def readAssigned? : List Char → Option (List Char × List Char)
  | '=' :: rest => readValue? (rest.dropWhile isBlank)
  | rest => some ([], rest)

theorem readAssigned?_of_ne {cs : List Char} (h : ∀ c ∈ cs.head?, c ≠ '=') :
    readAssigned? cs = some ([], cs) := by
  rw [readAssigned?.eq_def]
  split
  · exact absurd rfl (h _ rfl)
  · rfl

/-- The attribute of a name and a value as they were written. A slash alone closes the tag and is
no attribute. -/
def attribute? (name value : List Char) : Option Attribute :=
  let name := trimEndBy isSpace name
  if name = ['/'] ∧ value = [] then none else some ⟨lowered name, String.ofList value⟩

/-! ### Reading takes something off the text -/

theorem length_dropWhile_le {α : Type} (p : α → Bool) (xs : List α) :
    (xs.dropWhile p).length ≤ xs.length :=
  (List.dropWhile_sublist p).length_le

theorem length_of_readValue? {cs value rest : List Char}
    (h : readValue? cs = some (value, rest)) : rest.length ≤ cs.length := by
  cases cs with
  | nil => simp_all [readValue?]
  | cons c cs =>
    rw [readValue?] at h
    split at h
    · have := congrArg List.length (eq_append_of_splitAt? h)
      simp only [List.length_append, List.length_cons] at this ⊢
      omega
    · cases h
      exact length_dropWhile_le _ _

theorem length_of_readAssigned? {cs value rest : List Char}
    (h : readAssigned? cs = some (value, rest)) :
    rest.length ≤ cs.length ∧ (cs.head? = some '=' → rest.length < cs.length) := by
  rw [readAssigned?.eq_def] at h
  split at h
  · rename_i after
    have h1 := length_of_readValue? h
    have h2 := length_dropWhile_le isBlank after
    simp only [List.length_cons]
    omega
  · rename_i cs hne
    cases h
    refine ⟨Nat.le_refl _, fun hhead => ?_⟩
    obtain ⟨tail, rfl⟩ := List.head?_eq_some_iff.1 hhead
    exact absurd rfl (hne tail)

/-- An attribute takes something off a text that starts with no blank. -/
theorem length_of_attribute {c : Char} {cs value rest : List Char} (hc : isBlank c = false)
    (h : readAssigned? (((c :: cs).dropWhile isNameChar).dropWhile isBlank)
      = some (value, rest)) : rest.length ≤ cs.length := by
  by_cases he : c = '='
  · subst he
    have hn : isNameChar '=' = false := rfl
    rw [List.dropWhile_cons_of_neg (by simp [hn]), List.dropWhile_cons_of_neg (by simp [hc])] at h
    have := (length_of_readAssigned? h).2 rfl
    simp only [List.length_cons] at this
    omega
  · have hn : isNameChar c = true := by simp [isNameChar, hc, he]
    rw [List.dropWhile_cons_of_pos hn] at h
    have h1 := (length_of_readAssigned? h).1
    have h2 := length_dropWhile_le isBlank (cs.dropWhile isNameChar)
    have h3 := length_dropWhile_le isNameChar cs
    omega

theorem length_after_attribute {c : Char} {cs rest after value : List Char}
    (h : cs.dropWhile isBlank = c :: rest)
    (h' : readAssigned? (((c :: rest).dropWhile isNameChar).dropWhile isBlank)
      = some (value, after)) : after.length < cs.length := by
  have hc : isBlank c = false := by
    have := List.head?_dropWhile_not isBlank cs
    simpa [h] using this
  have h1 := length_of_attribute hc h'
  have h2 := length_dropWhile_le isBlank cs
  rw [h, List.length_cons] at h2
  omega

/-! ### The whole tag -/

/-- The attributes of a text, and whether every quote in it closes; those before a quote that does
not are kept. -/
def readAttributes (cs : List Char) : List Attribute × Bool :=
  match known (cs.dropWhile isBlank) with
  | ⟨[], _⟩ => ([], true)
  | ⟨c :: rest, _⟩ =>
    match known (readAssigned? (((c :: rest).dropWhile isNameChar).dropWhile isBlank)) with
    | ⟨none, _⟩ => ([], false)
    | ⟨some (value, after), _⟩ =>
      let more := readAttributes after
      ((attribute? ((c :: rest).takeWhile isNameChar) value).toList ++ more.1, more.2)
termination_by cs.length
decreasing_by exact length_after_attribute ‹_› ‹_›

theorem readAttributes_of_nil {cs : List Char} (h : cs.dropWhile isBlank = []) :
    readAttributes cs = ([], true) := by
  rw [readAttributes]
  split
  · rfl
  · rename_i hd _
    rw [h] at hd
    cases hd

/-- The first attribute of a text stands before those of the text behind it. -/
theorem readAttributes_of_cons {c : Char} {cs rest value after : List Char}
    (h : cs.dropWhile isBlank = c :: rest)
    (h' : readAssigned? (((c :: rest).dropWhile isNameChar).dropWhile isBlank)
      = some (value, after)) :
    readAttributes cs =
      ((attribute? ((c :: rest).takeWhile isNameChar) value).toList ++ (readAttributes after).1,
        (readAttributes after).2) := by
  rw [readAttributes]
  split
  · rename_i hd _
    rw [h] at hd
    cases hd
  · rename_i hd _
    rw [h] at hd
    cases hd
    split
    · rename_i hnone _
      rw [h'] at hnone
      cases hnone
    · rename_i hsome _
      rw [h'] at hsome
      cases hsome
      rfl

/-- A quote that never closes ends the attributes of a text. -/
theorem readAttributes_of_unclosed {c : Char} {cs rest : List Char}
    (h : cs.dropWhile isBlank = c :: rest)
    (h' : readAssigned? (((c :: rest).dropWhile isNameChar).dropWhile isBlank) = none) :
    readAttributes cs = ([], false) := by
  rw [readAttributes]
  split
  · rename_i hd _
    rw [h] at hd
    cases hd
  · rename_i hd _
    rw [h] at hd
    cases hd
    split
    · rfl
    · rename_i hsome _
      rw [h'] at hsome
      cases hsome

/-- The name of a tag, from the first word of its text. A slash at the end of a word that is the
whole text closes the tag and is no part of its name. -/
def readName (word rest : List Char) : String :=
  if rest = [] ∧ 1 < word.length ∧ word.getLast? = some '/' then lowered word.dropLast
  else lowered word

/-- Reads the text of a tag. -/
def read (text : List Char) : Reading :=
  match trimBy isBlank text with
  | [] | '!' :: _ => .nothing
  | cs =>
    let word := cs.takeWhile (!isBlank ·)
    let rest := cs.dropWhile (!isBlank ·)
    let found := readAttributes rest
    if found.2 then .complete ⟨readName word rest, found.1⟩
    else .unclosed ⟨readName word rest, found.1⟩

/-- What a text is read as, by the attributes that are found in it. -/
theorem read_of_attributes {text cs : List Char} {c : Char} (h : trimBy isBlank text = c :: cs)
    (hc : c ≠ '!') {attributes : List Attribute} {closed : Bool}
    (hfound : readAttributes ((c :: cs).dropWhile (!isBlank ·)) = (attributes, closed)) :
    read text =
      let name := readName ((c :: cs).takeWhile (!isBlank ·)) ((c :: cs).dropWhile (!isBlank ·))
      if closed then .complete ⟨name, attributes⟩ else .unclosed ⟨name, attributes⟩ := by
  rw [read, h]
  split
  · rename_i hnil
    cases hnil
  · rename_i hcons
    exact absurd (List.cons.inj hcons).1 hc
  · simp only [hfound]

end Tag

end BodyText
