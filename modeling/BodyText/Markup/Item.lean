import BodyText.Markup.Reference

/-!
# Items

A body is a sequence of items: characters, blanks, references, tags, and blocks that are skipped
whole. What starts with the text at hand is told by its first characters (`Head.of?`); a block
is only one when its whole opening is at hand.
-/

namespace BodyText

/-! ### Blocks -/

/-- A block that is skipped whole. -/
inductive Block where
  /-- A comment. -/
  | comment
  /-- A style sheet. -/
  | style
  /-- A script. -/
  | script
  deriving DecidableEq, Repr

namespace Block

/-- Every kind of block. -/
def all : List Block := [.comment, .style, .script]

/-- What opens a block, in lower case. -/
def opening : Block → List Char
  | .comment => ['<', '!', '-', '-']
  | .style => ['<', 's', 't', 'y', 'l', 'e']
  | .script => ['<', 's', 'c', 'r', 'i', 'p', 't']

/-- What closes a block, in lower case. -/
def closing : Block → List Char
  | .comment => ['-', '-', '>']
  | .style => ['<', '/', 's', 't', 'y', 'l', 'e', '>']
  | .script => ['<', '/', 's', 'c', 'r', 'i', 'p', 't', '>']

/-- The block that the text opens, and the text after its opening. -/
def opened? (cs : List Char) : Option (Block × List Char) :=
  all.findSome? fun b => (after? b.opening cs).map fun rest => (b, rest)

/-- The text after the first closing of the block. -/
def closed? (b : Block) (cs : List Char) : Option (List Char) := past? b.closing cs

theorem length_of_opened? {b : Block} {cs rest : List Char} (h : opened? cs = some (b, rest)) :
    rest.length < cs.length := by
  obtain ⟨b', -, hb⟩ := List.exists_of_findSome?_eq_some h
  obtain ⟨r, hr, hp⟩ := Option.map_eq_some_iff.1 hb
  cases hp
  have hlen := length_of_after? hr
  have : 0 < b.opening.length := by cases b <;> decide
  omega

end Block

/-! ### Heads -/

/-- The characters of a body that blanks are made of. -/
def isBodyBlank (c : Char) : Bool := c = ' ' || c = '\t' || c = '\r' || c = '\n'

/-- What a text starts with, and the text after that. -/
inductive Head where
  /-- The opening of a block. -/
  | block (b : Block) (rest : List Char)
  /-- The `<` of a tag. -/
  | tag (rest : List Char)
  /-- A `&`, which may start a reference. -/
  | ampersand (rest : List Char)
  /-- A blank. The two characters CR LF are one line end. -/
  | blank (c : Char) (rest : List Char)
  /-- Any other character. -/
  | char (c : Char) (rest : List Char)
  deriving DecidableEq, Repr

namespace Head

/-- What a text starts with; `none` for the empty text. -/
def of? : List Char → Option Head
  | [] => none
  | '\r' :: '\n' :: cs => some (.blank '\n' cs)
  | c :: cs =>
    if c = '<' then
      match Block.opened? (c :: cs) with
      | some (b, rest) => some (.block b rest)
      | none => some (.tag cs)
    else if c = '&' then some (.ampersand cs)
    else if isBodyBlank c then some (.blank c cs)
    else some (.char c cs)

/-- The text after the head. -/
def rest : Head → List Char
  | block _ cs | tag cs | ampersand cs | blank _ cs | char _ cs => cs

/-- A head takes something off the text. -/
theorem length_rest {cs : List Char} {head : Head} (h : of? cs = some head) :
    head.rest.length < cs.length := by
  rw [of?.eq_def] at h
  split at h
  · cases h
  · cases h
    simp only [rest, List.length_cons]
    omega
  · split at h
    · split at h
      · rename_i hb
        cases h
        exact Block.length_of_opened? hb
      · cases h
        simp [rest]
    · split at h
      · cases h
        simp [rest]
      · split at h <;> cases h <;> simp [rest]

theorem eq_cons_of_ampersand {cs rest : List Char} (h : of? cs = some (.ampersand rest)) :
    cs = '&' :: rest := by
  rw [of?.eq_def] at h
  split at h
  · cases h
  · cases h
  · rename_i c cs hne
    split at h
    · split at h <;> cases h
    · split at h
      · cases h
        simp_all
      · split at h <;> cases h

/-- Only the empty text has no head. -/
theorem of?_eq_none_iff {cs : List Char} : of? cs = none ↔ cs = [] := by
  constructor
  · intro h
    rw [of?.eq_def] at h
    split at h
    · rfl
    · cases h
    · split at h
      · split at h <;> cases h
      · split at h
        · cases h
        · split at h <;> cases h
  · rintro rfl
    rfl

end Head

/-! ### Whole items -/

/-- One thing that a body holds. -/
inductive Item where
  /-- A character that stands for itself. -/
  | char (c : Char)
  /-- A blank. -/
  | blank (c : Char)
  /-- A reference, as it was written. -/
  | reference (token : List Char)
  /-- A block that was skipped. -/
  | skipped
  /-- A tag, as the text between `<` and `>`. -/
  | tag (text : List Char)
  /-- A `<` without a `>`, with the text that follows it to the end. The text is not part of the
  item: it is read as body text. -/
  | unclosed (text : List Char)
  deriving DecidableEq, Repr

end BodyText
