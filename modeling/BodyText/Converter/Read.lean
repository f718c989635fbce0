import BodyText.Converter.Lookahead

/-!
# Reading an item

The item at the start of the text at hand is read whole, with as many lines more as that takes.
The opening of a block and the `<` of a tag are used up before more is read, so that a failure
leaves only what follows them; a `&` stays until it is known what it is. Reading an item uses
something up (`precedes_of_readItem`).
-/

namespace BodyText

namespace Converter

/-- Reads through the closing of a block, or to the end. -/
def skipBlock (c : Converter) (b : Block) : Except ReadError Item × Converter :=
  match c.search (.marker b.closing) with
  | (.error e, c') => (.error e, c')
  | (.ok _, c') => (.ok .skipped, c'.withUnread ((b.closed? c'.unread).getD []))

/-- Reads the text of a tag through its `>`. Where the input ends before that, the text stays. -/
def readTag (c : Converter) : Except ReadError Item × Converter :=
  match c.search (.char '>') with
  | (.error e, c') => (.error e, c')
  | (.ok closed, c') =>
    match if closed then splitAt? '>' c'.unread else none with
    | some (text, rest) => (.ok (.tag text), c'.withUnread rest)
    | none => (.ok (.unclosed c'.unread), c')

/-- Reads a reference, or a `&` that stands for itself. -/
def readReference (c : Converter) : Except ReadError Item × Converter :=
  match c.readUntil Reference.settled with
  | (.error e, c') => (.error e, c')
  | (.ok _, c') =>
    match Reference.token? c'.unread with
    | some (token, rest) => (.ok (.reference token), c'.withUnread rest)
    | none => (.ok (.char '&'), c'.withUnread (c'.unread.drop 1))

/-- Reads the item that the text at hand starts with. -/
def readItem (c : Converter) : Head → Except ReadError Item × Converter
  | .block b rest => (c.withUnread rest).skipBlock b
  | .tag rest => (c.withUnread rest).readTag
  | .ampersand _ => c.readReference
  | .blank d rest => (.ok (.blank d), c.withUnread rest)
  | .char d rest => (.ok (.char d), c.withUnread rest)

/-! ### Every item uses something up -/

/-- A converter that follows one whose text was shortened, itself with no more text than it has. -/
theorem Follows.precedes {c c' : Converter} {rest cs : List Char}
    (h : Follows c' (c.withUnread rest)) (hrest : rest.length < c.unread.length)
    (hle : cs.length ≤ c'.unread.length) : Precedes (c'.withUnread cs) c := by
  rcases h with hr | ⟨hr, hu⟩
  · exact .inl hr
  · refine .inr ⟨hr, Nat.lt_of_le_of_lt hle ?_⟩
    rw [hu]
    exact hrest

/-- A converter that follows another one, with less text than it has. -/
theorem Follows.precedes_of_lt {c c' : Converter} {cs : List Char} (h : Follows c' c)
    (hlt : c'.unread ≠ [] → cs.length < c'.unread.length) (hne : c.unread ≠ []) :
    Precedes (c'.withUnread cs) c := by
  rcases h with hr | ⟨hr, hu⟩
  · exact .inl hr
  · exact .inr ⟨hr, hu ▸ hlt (hu ▸ hne)⟩

theorem precedes_of_skipBlock {c c' : Converter} {b : Block} {rest : List Char} {item : Item}
    (hrest : rest.length < c.unread.length)
    (h : (c.withUnread rest).skipBlock b = (.ok item, c')) : Precedes c' c := by
  rw [skipBlock] at h
  split at h
  · cases h
  · rename_i d hd
    cases h
    refine (follows_of_search hd).precedes hrest ?_
    cases hclosed : b.closed? d.unread with
    | none => exact Nat.zero_le _
    | some after => exact length_of_past? hclosed

theorem precedes_of_readTag {c c' : Converter} {rest : List Char} {item : Item}
    (hrest : rest.length < c.unread.length)
    (h : (c.withUnread rest).readTag = (.ok item, c')) : Precedes c' c := by
  rw [readTag] at h
  split at h
  · cases h
  · rename_i d hd
    have hd := follows_of_search hd
    split at h
    · rename_i text after hsplit
      cases h
      obtain ⟨-, hsplit⟩ := Option.ite_none_right_eq_some.1 hsplit
      have hlen := congrArg List.length (eq_append_of_splitAt? hsplit)
      rw [List.length_append, List.length_cons] at hlen
      exact hd.precedes hrest (by omega)
    · cases h
      exact hd.precedes hrest (Nat.le_refl _)

theorem precedes_of_readReference {c c' : Converter} {item : Item} (hne : c.unread ≠ [])
    (h : c.readReference = (.ok item, c')) : Precedes c' c := by
  rw [readReference] at h
  split at h
  · cases h
  · rename_i d hd
    have hd := follows_of_readUntil hd
    split at h
    · rename_i token after htoken
      cases h
      obtain ⟨ht, happ⟩ := Reference.eq_append_of_tokenWithin? htoken
      have hpos := List.length_pos_iff.2 ht
      have hlen := congrArg List.length happ
      rw [List.length_append] at hlen
      exact hd.precedes_of_lt (fun _ => by omega) hne
    · cases h
      refine hd.precedes_of_lt (fun hd => ?_) hne
      have hpos := List.length_pos_iff.2 hd
      rw [List.length_drop]
      omega

/-- Reading an item uses something up. -/
theorem precedes_of_readItem {c c' : Converter} {head : Head} {item : Item}
    (hhead : Head.of? c.unread = some head) (h : c.readItem head = (.ok item, c')) :
    Precedes c' c := by
  have hrest := Head.length_rest hhead
  cases head with
  | block b rest => exact precedes_of_skipBlock hrest h
  | tag rest => exact precedes_of_readTag hrest h
  | ampersand rest =>
    refine precedes_of_readReference (fun hnil => ?_) h
    rw [hnil] at hhead
    cases hhead
  | blank d rest =>
    cases h
    exact .inr ⟨rfl, hrest⟩
  | char d rest =>
    cases h
    exact .inr ⟨rfl, hrest⟩

end Converter

end BodyText
