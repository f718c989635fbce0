import BodyText.Proofs.LetterCase
import BodyText.Proofs.Offsets
import BodyText.Proofs.WrittenTags

/-!
# Tags read by offsets

The text of a tag can be read by going through its bytes, with an offset for the place where the reading
stands and a slice of the text for each part that is found. Such a reading goes wrong when a slice is out of
range or ends within a character. It does not, whatever the text is (`Tag.readAt?_eq`): delimiters are bytes
below 0x80, so every part starts and ends between characters (`Tag.Found.Shows`). And each attribute takes
the reading further on (`Tag.lt_of_turnAt?`), so it ends.

What is read stands in the text, part by part (`Tag.StandsIn`).
-/

namespace BodyText

namespace Tag

/-! ### Reading by offsets -/

/-- A byte that is a blank. -/
def isBlankByte (b : UInt8) : Bool :=
  b = 0x09 || b = 0x0A || b = 0x0C || b = 0x0D || b = 0x20

/-- A byte of an attribute's name. -/
def isNameByte (b : UInt8) : Bool := !isBlankByte b && b ≠ 0x3D

/-- The offset behind the bytes of a kind that stand at an offset. -/
def skip (p : UInt8 → Bool) (bytes : List UInt8) (pos : Nat) : Nat :=
  pos + ((bytes.drop pos).takeWhile p).length

/-- What the bytes at an offset are read as. -/
inductive Found (α : Type) where
  /-- Something, and the offset to go on at. -/
  | value (a : α) (next : Nat)
  /-- A quote that never closes. -/
  | unclosed

/-- The value in quotes whose first byte is at an offset; `none` when a slice goes wrong. -/
def quotedAt? (text : List Char) (start : Nat) (quote : UInt8) : Option (Found (List Char)) :=
  let bytes := Utf8.encode text
  if bytes.length < start then none
  else
    let stop := skip (· ≠ quote) bytes start
    if stop < bytes.length then
      (slice? text start stop).map (.value · (skip isBlankByte bytes (stop + 1)))
    else some .unclosed

/-- The value without quotes at an offset; `none` when a slice goes wrong. -/
def plainAt? (text : List Char) (start : Nat) : Option (Found (List Char)) :=
  let stop := skip (!isBlankByte ·) (Utf8.encode text) start
  (slice? text start stop).map (.value · stop)

/-- The value at an offset; `none` when a slice goes wrong. -/
def valueAt? (text : List Char) (start : Nat) : Option (Found (List Char)) :=
  match (Utf8.encode text)[start]? with
  | some b => if b = 0x22 ∨ b = 0x27 then quotedAt? text (start + 1) b else plainAt? text start
  | none => plainAt? text start

/-- The value that a name has, from the offset behind the name and its blanks; `none` when a slice goes
wrong. -/
def assignedAt? (text : List Char) (pos : Nat) : Option (Found (List Char)) :=
  let bytes := Utf8.encode text
  if bytes[pos]? = some 0x3D then valueAt? text (skip isBlankByte bytes (pos + 1))
  else some (.value [] pos)

/-- The attribute at an offset, unless it is a slash; `none` when a slice goes wrong. -/
def turnAt? (text : List Char) (pos : Nat) : Option (Found (Option Attribute)) :=
  let bytes := Utf8.encode text
  let first := skip isBlankByte bytes pos
  let last := skip isNameByte bytes first
  match assignedAt? text (skip isBlankByte bytes last) with
  | none => none
  | some .unclosed => some .unclosed
  | some (.value value next) =>
    (slice? text first last).map fun name => .value (attribute? name value) next

/-! ### What the bytes tell -/

theorem isBlank_of_le {c : Char} (h : 128 ≤ c.toNat) : isBlank c = false := by
  cases hc : isBlank c with
  | false => rfl
  | true =>
    simp only [isBlank, Bool.or_eq_true, decide_eq_true_eq] at hc
    rcases hc with (((rfl | rfl) | rfl) | rfl) | rfl <;> exact absurd h (by decide)

theorem agrees_isBlank : Utf8.Agrees isBlankByte isBlank :=
  Utf8.agrees_of_ascii false (by decide) (by decide +kernel) fun _ => isBlank_of_le

theorem agrees_isNameChar : Utf8.Agrees isNameByte isNameChar :=
  agrees_isBlank.not.and (Utf8.agrees_ne (d := '=') (by decide))

section

variable {p : UInt8 → Bool} {q : Char → Bool} {text cs : List Char} {pos : Nat}

theorem skip_eq (h : Utf8.Agrees p q) (hpos : IsRest text pos cs) :
    skip p (Utf8.encode text) pos = pos + byteLength (cs.takeWhile q) := by
  rw [skip, Utf8.drop_encode hpos, Utf8.takeWhile_encode h, Utf8.length_encode]

/-- A run of bytes ends between characters. -/
theorem isRest_skip (h : Utf8.Agrees p q) (hpos : IsRest text pos cs) :
    IsRest text (skip p (Utf8.encode text) pos) (cs.dropWhile q) := by
  rw [skip_eq h hpos]
  exact IsRest.behind (by rwa [List.takeWhile_append_dropWhile])

theorem slice?_skip (h : Utf8.Agrees p q) (hpos : IsRest text pos cs) :
    slice? text pos (skip p (Utf8.encode text) pos) = some (cs.takeWhile q) := by
  rw [skip_eq h hpos]
  exact IsRest.slice?_eq (by rwa [List.takeWhile_append_dropWhile])

theorem getElem?_encode (hpos : IsRest text pos cs) :
    (Utf8.encode text)[pos]? = (Utf8.encode cs).head? := by
  rw [← Utf8.drop_encode hpos, List.head?_drop]

/-- Which delimiter stands at an offset is told by the byte there. -/
theorem getElem?_encode_eq_iff {d : Char} (hd : d.toNat < 128) (hpos : IsRest text pos cs) :
    (Utf8.encode text)[pos]? = some (UInt8.ofNat d.toNat) ↔ cs.head? = some d := by
  rw [getElem?_encode hpos]
  cases cs with
  | nil => simp
  | cons c cs =>
    obtain ⟨b, bs, hbytes⟩ := Utf8.exists_utf8EncodeChar c
    have hagrees : decide (b ≠ UInt8.ofNat d.toNat) = decide (c ≠ d) :=
      Utf8.agrees_ne hd c b (hbytes ▸ List.mem_cons_self)
    rw [Utf8.encode_cons, hbytes, List.cons_append, List.head?_cons, List.head?_cons,
      Option.some_inj, Option.some_inj]
    exact not_iff_not.1 (decide_eq_decide.1 hagrees)

end

namespace Found

/-- What is read at an offset is what the characters there are read as, up to blanks behind it. -/
inductive Shows {α : Type} (text : List Char) : Found α → Option (α × List Char) → Prop
  | value {a : α} {next : Nat} {behind rest : List Char} :
      IsRest text next behind → behind.dropWhile isBlank = rest.dropWhile isBlank →
      Shows text (.value a next) (some (a, rest))
  | unclosed : Shows text .unclosed none

end Found

section

variable {text cs : List Char} {pos : Nat}

theorem exists_quotedAt? {quote : Char} (hquote : quote.toNat < 128) (hpos : IsRest text pos cs) :
    ∃ found : Found (List Char), quotedAt? text pos (UInt8.ofNat quote.toNat) = some found ∧
      found.Shows text (splitAt? quote cs) := by
  have hagrees := Utf8.agrees_ne hquote
  -- the offset at which the run of other bytes ends is that of the quote, or the end of the text
  have hstop := isRest_skip hagrees hpos
  have hlen := hstop.add_byteLength
  have hin := hpos.add_byteLength
  rw [quotedAt?]
  simp only [Utf8.length_encode]
  rw [if_neg (by omega), splitAt?]
  cases hafter : cs.dropWhile (· ≠ quote) with
  | nil =>
    rw [hafter] at hlen
    exact ⟨.unclosed, if_neg (Nat.not_lt.2 (Nat.le_of_eq hlen.symm)), .unclosed⟩
  | cons c after =>
    have hc : c = quote := by
      have hhead := List.head?_dropWhile_not (· ≠ quote) cs
      simp only [hafter, List.head?_cons] at hhead
      simpa using hhead
    subst hc
    rw [hafter] at hstop hlen
    have hsize : c.utf8Size = 1 := Utf8.utf8Size_of_lt hquote
    have hbehind := isRest_skip agrees_isBlank (hsize ▸ hstop.behind_cons)
    rw [byteLength, hsize] at hlen
    rw [if_pos (by omega), slice?_skip hagrees hpos]
    exact ⟨_, rfl, .value hbehind (List.dropWhile_idempotent isBlank after)⟩

theorem plainAt?_eq (hpos : IsRest text pos cs) :
    ∃ found : Found (List Char), plainAt? text pos = some found ∧
      found.Shows text (some (cs.takeWhile (!isBlank ·), cs.dropWhile (!isBlank ·))) := by
  rw [plainAt?, slice?_skip agrees_isBlank.not hpos]
  exact ⟨_, rfl, .value (isRest_skip agrees_isBlank.not hpos) rfl⟩

theorem exists_valueAt? (hpos : IsRest text pos cs) :
    ∃ found : Found (List Char), valueAt? text pos = some found ∧
      found.Shows text (readValue? cs) := by
  have hbyte := getElem?_encode hpos
  have hdouble : (Utf8.encode text)[pos]? = some 0x22 ↔ cs.head? = some '"' :=
    getElem?_encode_eq_iff (d := '"') (by decide) hpos
  have hsingle : (Utf8.encode text)[pos]? = some 0x27 ↔ cs.head? = some '\'' :=
    getElem?_encode_eq_iff (d := '\'') (by decide) hpos
  rw [valueAt?]
  cases cs with
  | nil =>
    rw [hbyte]
    exact plainAt?_eq hpos
  | cons c cs =>
    obtain ⟨b, bs, hbytes⟩ := Utf8.exists_utf8EncodeChar c
    rw [Utf8.encode_cons, hbytes, List.cons_append, List.head?_cons] at hbyte
    rw [hbyte, Option.some_inj, List.head?_cons, Option.some_inj] at hdouble hsingle
    simp only [hbyte]
    by_cases hquote : c = '"' ∨ c = '\''
    · have hb : b = UInt8.ofNat c.toNat ∧ c.toNat < 128 := by
        rcases hquote with rfl | rfl
        · exact ⟨hdouble.2 rfl, by decide⟩
        · exact ⟨hsingle.2 rfl, by decide⟩
      have hbehind := hpos.behind_cons
      rw [Utf8.utf8Size_of_lt hb.2] at hbehind
      rw [readValue?, if_pos hquote, if_pos, hb.1]
      · exact exists_quotedAt? hb.2 hbehind
      · rwa [hdouble, hsingle]
    · rw [readValue?, if_neg hquote, if_neg]
      · exact plainAt?_eq hpos
      · rwa [hdouble, hsingle]

theorem exists_assignedAt? (hpos : IsRest text pos cs) :
    ∃ found : Found (List Char), assignedAt? text pos = some found ∧
      found.Shows text (readAssigned? cs) := by
  have hequals : (Utf8.encode text)[pos]? = some 0x3D ↔ cs.head? = some '=' :=
    getElem?_encode_eq_iff (d := '=') (by decide) hpos
  rw [assignedAt?]
  by_cases hcs : cs.head? = some '='
  · obtain ⟨rest, rfl⟩ := List.head?_eq_some_iff.1 hcs
    have hstart := isRest_skip agrees_isBlank hpos.behind_cons
    simp only [if_pos (hequals.2 hcs), readAssigned?]
    exact exists_valueAt? hstart
  · rw [if_neg (mt hequals.1 hcs), readAssigned?_of_ne]
    · exact ⟨_, rfl, .value hpos rfl⟩
    · rintro c hc rfl
      exact hcs hc

/-- An attribute is read at an offset as it is read of the characters there. -/
theorem exists_turnAt? (hpos : IsRest text pos cs) :
    ∃ found : Found (Option Attribute), turnAt? text pos = some found ∧
      found.Shows text ((readAssigned? (((cs.dropWhile isBlank).dropWhile isNameChar).dropWhile
        isBlank)).map fun value =>
          (attribute? ((cs.dropWhile isBlank).takeWhile isNameChar) value.1, value.2)) := by
  have hfirst := isRest_skip agrees_isBlank hpos
  have hbehind := isRest_skip agrees_isBlank (isRest_skip agrees_isNameChar hfirst)
  obtain ⟨found, hfound, hshows⟩ := exists_assignedAt? hbehind
  rw [turnAt?]
  simp only [hfound]
  generalize readAssigned? (((cs.dropWhile isBlank).dropWhile isNameChar).dropWhile isBlank) =
    value? at hshows ⊢
  cases hshows with
  | unclosed => exact ⟨.unclosed, rfl, .unclosed⟩
  | value hnext hsame =>
    simp only [slice?_skip agrees_isNameChar hfirst]
    exact ⟨_, rfl, .value hnext hsame⟩

end

/-! ### Progress -/

section

variable {p : UInt8 → Bool} {bytes : List UInt8} {text : List Char} {pos next : Nat}

theorem le_skip : pos ≤ skip p bytes pos := Nat.le_add_right ..

theorem lt_skip (h : pos < bytes.length) (hp : p bytes[pos] = true) : pos < skip p bytes pos := by
  rw [skip, List.drop_eq_getElem_cons h, List.takeWhile_cons_of_pos hp, List.length_cons]
  omega

theorem le_of_quotedAt? {quote : UInt8} {value : List Char}
    (h : quotedAt? text pos quote = some (.value value next)) : pos ≤ next := by
  rw [quotedAt?] at h
  dsimp only at h
  split at h
  · cases h
  · split at h
    · obtain ⟨_, -, hvalue⟩ := Option.map_eq_some_iff.1 h
      cases hvalue
      exact Nat.le_trans (Nat.le_succ_of_le le_skip) le_skip
    · cases h

theorem le_of_plainAt? {value : List Char} (h : plainAt? text pos = some (.value value next)) :
    pos ≤ next := by
  obtain ⟨_, -, hvalue⟩ := Option.map_eq_some_iff.1 h
  cases hvalue
  exact le_skip

theorem le_of_valueAt? {value : List Char} (h : valueAt? text pos = some (.value value next)) :
    pos ≤ next := by
  rw [valueAt?] at h
  split at h
  · split at h
    · exact Nat.le_of_succ_le (le_of_quotedAt? h)
    · exact le_of_plainAt? h
  · exact le_of_plainAt? h

theorem le_of_assignedAt? {value : List Char}
    (h : assignedAt? text pos = some (.value value next)) :
    pos ≤ next ∧ ((Utf8.encode text)[pos]? = some 0x3D → pos < next) := by
  rw [assignedAt?] at h
  split at h
  · have hlt : pos < next :=
      Nat.lt_of_lt_of_le (Nat.lt_of_lt_of_le (Nat.lt_succ_self pos) le_skip) (le_of_valueAt? h)
    exact ⟨Nat.le_of_lt hlt, fun _ => hlt⟩
  · rename_i hequals
    cases h
    exact ⟨Nat.le_refl _, fun h => absurd h hequals⟩

/-- **Every attribute takes the reading further on**: past a blank, past a character of a name, or past a
`=`. -/
theorem lt_of_turnAt? {a? : Option Attribute} (hpos : pos < byteLength text)
    (h : turnAt? text pos = some (.value a? next)) : pos < next := by
  rw [turnAt?] at h
  split at h
  · cases h
  · cases h
  · rename_i hassigned
    obtain ⟨_, -, hvalue⟩ := Option.map_eq_some_iff.1 h
    cases hvalue
    obtain ⟨hle, hlt⟩ := le_of_assignedAt? hassigned
    generalize hbytes : Utf8.encode text = bytes at hle hlt
    have hin : pos < bytes.length := by rwa [← hbytes, Utf8.length_encode]
    by_contra hnot
    -- nothing was passed over, so the byte here is neither a blank nor one of a name
    have h1 : pos ≤ skip isBlankByte bytes pos := le_skip
    have h2 : skip isBlankByte bytes pos ≤ skip isNameByte bytes (skip isBlankByte bytes pos) :=
      le_skip
    have h3 : skip isNameByte bytes (skip isBlankByte bytes pos) ≤
        skip isBlankByte bytes (skip isNameByte bytes (skip isBlankByte bytes pos)) := le_skip
    have hblanks : skip isBlankByte bytes pos = pos := by omega
    rw [hblanks] at h2 h3 hle hlt
    have hname : skip isNameByte bytes pos = pos := by omega
    rw [hname, hblanks] at hle hlt
    have hblank : ¬ isBlankByte bytes[pos] = true := fun hb => by
      have := lt_skip hin hb
      omega
    have hsolid : ¬ isNameByte bytes[pos] = true := fun hb => by
      have := lt_skip hin hb
      omega
    have hequals : bytes[pos] = 0x3D := by simpa [isNameByte, hblank] using hsolid
    exact hnot (hlt (by rw [List.getElem?_eq_getElem hin, hequals]))

end

/-! ### The whole tag -/

/-- The attributes from an offset on, and whether every quote closes; `none` when a slice goes wrong. -/
def attributesAt? (text : List Char) (pos : Nat) : Option (List Attribute × Bool) :=
  if hpos : pos < byteLength text then
    match known (turnAt? text pos) with
    | ⟨none, _⟩ => none
    | ⟨some .unclosed, _⟩ => some ([], false)
    | ⟨some (.value a? next), h⟩ =>
      have := lt_of_turnAt? hpos h
      (attributesAt? text next).map fun more => (a?.toList ++ more.1, more.2)
  else some ([], true)
termination_by byteLength text - pos

/-- The name of a tag, from its first word and whether that is the whole text; `none` when a slice goes
wrong. -/
def nameOf? (word : List Char) (whole : Bool) : Option (List Char) :=
  if whole ∧ 1 < byteLength word ∧ word.getLast? = some '/' then slice? word 0 (byteLength word - 1)
  else some word

/-- Reads the text of a tag by offsets; `none` when a slice goes wrong. -/
def readAt? (text : List Char) : Option Reading :=
  match trimBy isBlank text with
  | [] | '!' :: _ => some .nothing
  | cs =>
    let pos := skip (!isBlankByte ·) (Utf8.encode cs) 0
    (slice? cs 0 pos).bind fun word =>
      (nameOf? word (pos = byteLength cs)).bind fun name =>
        (attributesAt? cs pos).map fun found =>
          if found.2 then .complete ⟨lowered name, found.1⟩
          else .unclosed ⟨lowered name, found.1⟩

/-- A text that does not end with a blank. -/
def Trimmed (text : List Char) : Prop := ∀ c ∈ text.getLast?, isBlank c = false

theorem trimmed_trimBy (cs : List Char) : Trimmed (trimBy isBlank cs) := by
  intro c hc
  have hhead := List.head?_dropWhile_not isBlank (cs.dropWhile isBlank).reverse
  rw [trimBy, trimEndBy, List.getLast?_reverse] at hc
  rw [hc] at hhead
  simpa using hhead

section

variable {text cs : List Char} {pos : Nat}

/-- Before the end of a trimmed text, something stands behind the blanks. -/
theorem exists_of_trimmed (htext : Trimmed text) (hpos : IsRest text pos cs)
    (hlt : pos < byteLength text) : ∃ c rest, cs.dropWhile isBlank = c :: rest := by
  refine List.exists_cons_of_ne_nil fun hnil => ?_
  obtain ⟨before, rfl, rfl⟩ := hpos
  have hne : cs ≠ [] := by
    rintro rfl
    rw [List.append_nil] at hlt
    exact Nat.lt_irrefl _ hlt
  have hlast : cs.getLast hne ∈ (before ++ cs).getLast? := by
    rw [List.getLast?_append, List.getLast?_eq_some_getLast hne]
    rfl
  have hblank := List.dropWhile_eq_nil_iff.1 hnil _ (List.getLast_mem hne)
  rw [htext _ hlast] at hblank
  cases hblank

/-- The attributes are read by offsets as they are read of the characters. -/
theorem attributesAt?_eq (htext : Trimmed text) (hpos : IsRest text pos cs) :
    attributesAt? text pos = some (readAttributes cs) := by
  -- by induction on the attributes, each of which takes the reading further on
  fun_induction attributesAt? text pos generalizing cs with
  | case1 pos hlt hnone _ =>
    obtain ⟨found, hfound, -⟩ := exists_turnAt? hpos
    rw [hnone] at hfound
    cases hfound
  | case2 pos hlt hunclosed _ =>
    obtain ⟨c, rest, hdrop⟩ := exists_of_trimmed htext hpos hlt
    obtain ⟨found, hfound, hshows⟩ := exists_turnAt? hpos
    rw [hunclosed] at hfound
    cases hfound
    rw [hdrop] at hshows
    cases hassigned : readAssigned? (((c :: rest).dropWhile isNameChar).dropWhile isBlank) with
    | none => rw [readAttributes_of_unclosed hdrop hassigned]
    | some value =>
      rw [hassigned] at hshows
      cases hshows
  | case3 pos hlt a? next hvalue _ _ ih =>
    obtain ⟨c, rest, hdrop⟩ := exists_of_trimmed htext hpos hlt
    obtain ⟨found, hfound, hshows⟩ := exists_turnAt? hpos
    rw [hvalue] at hfound
    cases hfound
    rw [hdrop] at hshows
    cases hassigned : readAssigned? (((c :: rest).dropWhile isNameChar).dropWhile isBlank) with
    | none =>
      rw [hassigned] at hshows
      cases hshows
    | some value =>
      rw [hassigned] at hshows
      obtain ⟨value, after⟩ := value
      cases hshows with
      | value hnext hsame =>
        rw [ih hnext, readAttributes_of_cons hdrop hassigned, Option.map_some,
          ← readAttributes_dropWhile after, ← hsame, readAttributes_dropWhile]
  | case4 pos hge =>
    have hlen := hpos.add_byteLength
    have hnil : cs = [] := byteLength_eq_zero_iff.1 (by omega)
    rw [hnil, readAttributes_of_nil rfl]

theorem one_lt_byteLength_iff {word : List Char} (hslash : word.getLast? = some '/') :
    1 < byteLength word ↔ 1 < word.length := by
  obtain ⟨before, rfl⟩ := List.getLast?_eq_some_iff.1 hslash
  have hlast : byteLength ['/'] = 1 := rfl
  rw [byteLength_append, hlast, List.length_append, List.length_singleton]
  cases before with
  | nil => rfl
  | cons c cs =>
    have := Char.utf8Size_pos c
    rw [byteLength, List.length_cons]
    omega

theorem nameOf?_eq (word : List Char) {rest : List Char} {whole : Bool}
    (hwhole : whole = true ↔ rest = []) :
    (nameOf? word whole).map lowered = some (readName word rest) := by
  have hiff : (whole = true ∧ 1 < byteLength word ∧ word.getLast? = some '/') ↔
      (rest = [] ∧ 1 < word.length ∧ word.getLast? = some '/') := by
    rw [hwhole]
    exact and_congr_right fun _ => and_congr_left one_lt_byteLength_iff
  rw [nameOf?, readName]
  by_cases hslash : rest = [] ∧ 1 < word.length ∧ word.getLast? = some '/'
  · rw [if_pos (hiff.2 hslash), if_pos hslash]
    obtain ⟨before, rfl⟩ := List.getLast?_eq_some_iff.1 hslash.2.2
    have hslice := (IsRest.start (before ++ ['/'])).slice?_eq
    rw [Nat.zero_add] at hslice
    rw [byteLength_append, show byteLength ['/'] = 1 from rfl, Nat.add_sub_cancel, hslice,
      List.dropLast_concat, Option.map_some]
  · rw [if_neg (mt hiff.1 hslash), if_neg hslash, Option.map_some]

/-- **A tag is read by offsets as it is read of its characters**, and no slice goes wrong. -/
theorem readAt?_eq (text : List Char) : readAt? text = some (read text) := by
  have htrimmed := trimmed_trimBy text
  rw [readAt?, read]
  generalize trimBy isBlank text = cs at htrimmed
  split
  · rfl
  · rfl
  · have hword := slice?_skip agrees_isBlank.not (.start cs)
    have hbehind := isRest_skip agrees_isBlank.not (.start cs)
    have hlen := hbehind.add_byteLength
    simp only [hword, Option.bind_some, attributesAt?_eq htrimmed hbehind, Option.map_some]
    have hwhole : decide (skip (!isBlankByte ·) (Utf8.encode cs) 0 = byteLength cs) = true ↔
        cs.dropWhile (!isBlank ·) = [] := by
      rw [decide_eq_true_iff, ← byteLength_eq_zero_iff]
      omega
    obtain ⟨name, hname, hlowered⟩ :=
      Option.map_eq_some_iff.1 (nameOf?_eq (cs.takeWhile (!isBlank ·)) hwhole)
    rw [hname, Option.bind_some, hlowered]

example : readAt? ['a', ' ', '=', ' ', '"', 'é', '"', 'b', '/', '=', '\''] =
    some (.unclosed ⟨"a", [⟨"", "é"⟩]⟩) := by
  cbv

end

/-! ### The offsets of a reading -/

/-- The offsets at which the attributes of a text are read, each with the number of those before. -/
inductive Reaches (text : List Char) : Nat → Nat → Prop
  | first : Reaches text 0 (skip (!isBlankByte ·) (Utf8.encode text) 0)
  | next {turns pos next : Nat} {a? : Option Attribute} : Reaches text turns pos →
      pos < byteLength text → turnAt? text pos = some (.value a? next) →
      Reaches text (turns + 1) next

/-- What is reached is a place between characters, and there are as many bytes before it as attributes. -/
theorem Reaches.isPlace {text : List Char} {turns pos : Nat} (h : Reaches text turns pos) :
    IsPlace text pos ∧ turns ≤ pos := by
  induction h with
  | first => exact ⟨⟨_, isRest_skip agrees_isBlank.not (.start text)⟩, Nat.zero_le _⟩
  | @next turns pos next a? _ hlt hturn ih =>
    obtain ⟨⟨rest, hpos⟩, hle⟩ := ih
    obtain ⟨found, hfound, hshows⟩ := exists_turnAt? hpos
    rw [hturn] at hfound
    cases hfound
    generalize (readAssigned? _).map _ = value? at hshows
    cases hshows with
    | value hnext _ =>
      exact ⟨⟨_, hnext⟩, Nat.le_trans (Nat.succ_le_succ hle) (lt_of_turnAt? hlt hturn)⟩

/-- The reading ends: at the end of the text or at a quote that never closes. -/
theorem Reaches.exists_last {text : List Char} {turns pos : Nat} (h : Reaches text turns pos) :
    ∃ last end', Reaches text last end' ∧
      (end' = byteLength text ∨ end' < byteLength text ∧ turnAt? text end' = some .unclosed) := by
  obtain ⟨⟨rest, hpos⟩, -⟩ := h.isPlace
  have hlen := hpos.add_byteLength
  by_cases hlt : pos < byteLength text
  · obtain ⟨found, hfound, -⟩ := exists_turnAt? hpos
    cases found with
    | unclosed => exact ⟨turns, pos, h, .inr ⟨hlt, hfound⟩⟩
    | value a? next =>
      have := lt_of_turnAt? hlt hfound
      exact (h.next hlt hfound).exists_last
  · exact ⟨turns, pos, h, .inl (by omega)⟩
termination_by byteLength text - pos

/-! ### What is read stands in the text -/

/-- Parts of a text that stand in it one behind the other. -/
inductive InOrder : List (List Char) → List Char → Prop
  | nil (rest : List Char) : InOrder [] rest
  | cons (gap part : List Char) {parts : List (List Char)} {rest : List Char} :
      InOrder parts rest → InOrder (part :: parts) (gap ++ (part ++ rest))

namespace InOrder

variable {parts : List (List Char)} {text : List Char}

theorem behind (h : InOrder parts text) (before : List Char) : InOrder parts (before ++ text) := by
  cases h with
  | nil => exact .nil _
  | cons gap part h =>
    rw [← List.append_assoc]
    exact .cons (before ++ gap) part h

theorem append (h : InOrder parts text) (more : List Char) : InOrder parts (text ++ more) := by
  induction h with
  | nil => exact .nil _
  | cons gap part _ ih =>
    rw [List.append_assoc, List.append_assoc]
    exact .cons gap part ih

end InOrder

/-- An attribute that is written as a name and a value. -/
def ofWritten (pair : List Char × List Char) : Attribute := ⟨lowered pair.1, String.ofList pair.2⟩

/-- The parts of a tag stand in a text one behind the other: its name, then each attribute's name and value;
the names up to the case of their letters. -/
def StandsIn (tag : Tag) (text : List Char) : Prop :=
  ∃ (name : List Char) (pairs : List (List Char × List Char)),
    tag = ⟨lowered name, pairs.map ofWritten⟩ ∧
      InOrder (name :: pairs.flatMap fun pair => [pair.1, pair.2]) text

section

variable {cs value after : List Char}

theorem exists_of_readValue? (h : readValue? cs = some (value, after)) :
    ∃ before behind, cs = before ++ (value ++ (behind ++ after)) := by
  cases cs with
  | nil =>
    cases h
    exact ⟨[], [], rfl⟩
  | cons c cs =>
    rw [readValue?] at h
    split at h
    · exact ⟨[c], [c], by rw [eq_append_of_splitAt? h]; rfl⟩
    · cases h
      exact ⟨[], [], List.takeWhile_append_dropWhile.symm⟩

theorem exists_of_readAssigned? (h : readAssigned? cs = some (value, after)) :
    ∃ before behind, cs = before ++ (value ++ (behind ++ after)) := by
  rw [readAssigned?.eq_def] at h
  split at h
  · rename_i rest
    obtain ⟨before, behind, hrest⟩ := exists_of_readValue? h
    refine ⟨'=' :: (rest.takeWhile isBlank ++ before), behind, ?_⟩
    rw [List.cons_append, List.append_assoc, ← hrest, List.takeWhile_append_dropWhile]
  · cases h
    exact ⟨[], [], rfl⟩

/-- An attribute is a slash, or has a name that its text starts with. -/
theorem attribute?_cases (name value : List Char) :
    attribute? name value = none ∨
      ∃ kept tail, name = kept ++ tail ∧ attribute? name value = some (ofWritten (kept, value)) := by
  obtain ⟨tail, hname⟩ : trimEndBy isSpace name <+: name := List.rdropWhile_prefix isSpace name
  rw [attribute?]
  split
  · exact .inl rfl
  · exact .inr ⟨_, tail, hname.symm, rfl⟩

/-- The attributes of a text stand in it, and their names are made of what a name is made of. -/
theorem readAttributes_standIn (cs : List Char) :
    ∃ pairs : List (List Char × List Char), (readAttributes cs).1 = pairs.map ofWritten ∧
      InOrder (pairs.flatMap fun pair => [pair.1, pair.2]) cs ∧
      ∀ pair ∈ pairs, ∀ c ∈ pair.1, isNameChar c = true := by
  -- by induction on the attributes
  induction cs using readAttributes.induct with
  | case1 cs hnil _ =>
    rw [readAttributes_of_nil hnil]
    exact ⟨[], rfl, .nil cs, by simp⟩
  | case2 cs c rest hcons _ hnone _ =>
    rw [readAttributes_of_unclosed hcons hnone]
    exact ⟨[], rfl, .nil cs, by simp⟩
  | case3 cs c rest hcons _ value after hsome _ ih =>
    obtain ⟨pairs, hpairs, horder, hnames⟩ := ih
    obtain ⟨before, behind, hassigned⟩ := exists_of_readAssigned? hsome
    have hcs : cs = cs.takeWhile isBlank ++ ((c :: rest).takeWhile isNameChar ++
        (((c :: rest).dropWhile isNameChar).takeWhile isBlank ++
          (before ++ (value ++ (behind ++ after))))) := by
      rw [← hassigned, List.takeWhile_append_dropWhile, List.takeWhile_append_dropWhile, ← hcons,
        List.takeWhile_append_dropWhile]
    rw [readAttributes_of_cons hcons hsome, hpairs]
    rcases attribute?_cases ((c :: rest).takeWhile isNameChar) value with
      hslash | ⟨kept, tail, hname, hattribute⟩
    · refine ⟨pairs, by rw [hslash]; rfl, ?_, hnames⟩
      rw [hcs]
      exact ((((((horder.behind _).behind _).behind _).behind _).behind _).behind _)
    · refine ⟨(kept, value) :: pairs, by rw [hattribute]; rfl, ?_, ?_⟩
      · rw [hcs, hname, List.append_assoc]
        exact .cons _ kept (((InOrder.cons before value (horder.behind behind)).behind _).behind tail)
      · intro pair hpair d hd
        rcases List.mem_cons.1 hpair with rfl | hpair
        · exact List.mem_takeWhile_imp (hname ▸ List.mem_append_left tail hd)
        · exact hnames pair hpair d hd

end

/-- What is read of a text stands in it. The name of the tag is not empty and has no blank; the name of an
attribute has no blank and no `=`. -/
structure IsReadOf (tag : Tag) (text : List Char) : Prop where
  /-- Where the parts stand. -/
  standsIn : tag.StandsIn text
  /-- The name. -/
  name_ne : tag.name ≠ ""
  /-- The characters of the name. -/
  name_solid : ∀ c ∈ tag.name.toList, isBlank c = false
  /-- The characters of the names of attributes. -/
  attributes : ∀ a ∈ tag.attributes, ∀ c ∈ a.name.toList, isBlank c = false ∧ c ≠ '='

theorem toList_lowered (cs : List Char) : (lowered cs).toList = lower cs := String.toList_ofList

/-- The name of a tag is a text that its first word starts with. -/
theorem exists_readName {word : List Char} (hword : word ≠ []) (rest : List Char) :
    ∃ kept tail, word = kept ++ tail ∧ kept ≠ [] ∧ readName word rest = lowered kept := by
  rw [readName]
  split
  · rename_i hslash
    obtain ⟨before, rfl⟩ := List.getLast?_eq_some_iff.1 hslash.2.2
    refine ⟨before, ['/'], rfl, ?_, by rw [List.dropLast_concat]⟩
    rintro rfl
    exact absurd hslash.2.1 (by decide)
  · exact ⟨word, [], (List.append_nil word).symm, hword, rfl⟩

/-- A name in lower case is made of what the name is made of. -/
theorem forall_mem_lowered {p : Char → Bool} (hp : CaseBlind p) {cs : List Char} {v : Bool}
    (h : ∀ c ∈ cs, p c = v) : ∀ c ∈ (lowered cs).toList, p c = v := by
  intro c hc
  rw [toList_lowered] at hc
  obtain ⟨d, hd, rfl⟩ := List.mem_map.1 hc
  rw [hp d, h d hd]

theorem isReadOf_read {text : List Char} {tag : Tag}
    (h : read text = .complete tag ∨ read text = .unclosed tag) : tag.IsReadOf text := by
  cases hchars : trimBy isBlank text with
  | nil =>
    rw [read_of_nothing (.inl hchars)] at h
    rcases h with h | h <;> cases h
  | cons c cs =>
    by_cases hc : c = '!'
    · rw [read_of_nothing (.inr ⟨cs, hc ▸ hchars⟩)] at h
      rcases h with h | h <;> cases h
    · obtain ⟨more, hmore⟩ : trimBy isBlank text <+: text.dropWhile isBlank :=
        List.rdropWhile_prefix isBlank _
      rw [hchars] at hmore
      have hsolid : isBlank c = false := by
        have hhead := List.head?_dropWhile_not isBlank text
        rw [← hmore] at hhead
        simpa using hhead
      obtain ⟨pairs, hpairs, horder, hnames⟩ :=
        readAttributes_standIn ((c :: cs).dropWhile (!isBlank ·))
      have hne : (c :: cs).takeWhile (!isBlank ·) ≠ [] := by simp [hsolid]
      obtain ⟨name, tail, hword, hname, hread⟩ :=
        exists_readName hne ((c :: cs).dropWhile (!isBlank ·))
      rw [read_of_attributes hchars hc rfl, hpairs, hread] at h
      have htag : tag = ⟨lowered name, pairs.map ofWritten⟩ := by
        dsimp only at h
        split at h <;> rcases h with h | h <;> cases h <;> rfl
      subst htag
      refine ⟨⟨name, pairs, rfl, ?_⟩, ?_, ?_, ?_⟩
      · rw [← List.takeWhile_append_dropWhile (p := isBlank) (l := text), ← hmore,
          ← List.takeWhile_append_dropWhile (p := (!isBlank ·)) (l := c :: cs), hword,
          List.append_assoc, List.append_assoc]
        exact (InOrder.cons [] name ((horder.append more).behind tail)).behind _
      · intro hnil
        have hlower := congrArg String.toList hnil
        rw [toList_lowered] at hlower
        exact hname (List.map_eq_nil_iff.1 hlower)
      · apply forall_mem_lowered caseBlind_isBlank
        intro d hd
        have := List.mem_takeWhile_imp (hword ▸ List.mem_append_left tail hd)
        simpa using this
      · intro a ha d hd
        obtain ⟨pair, hpair, rfl⟩ := List.mem_map.1 ha
        have hd := forall_mem_lowered caseBlind_isNameChar (hnames pair hpair) d hd
        exact ⟨isBlank_of_isNameChar hd, by rintro rfl; cases hd⟩

/-- **Reading a tag by offsets** gives for every text what its characters are read as. The reading of the
attributes stands at places between characters, goes strictly forward with every attribute, and ends; no
slice is out of range or ends within a character; and what is read stands in the text, part by part. -/
theorem reading_by_offsets (text : List Char) :
    readAt? text = some (read text) ∧
      (∀ turns pos, Reaches (trimBy isBlank text) turns pos →
        IsPlace (trimBy isBlank text) pos ∧ turns ≤ pos ∧
          ∃ found : Found (Option Attribute), turnAt? (trimBy isBlank text) pos = some found ∧
            ∀ a? next, found = .value a? next → pos < byteLength (trimBy isBlank text) → pos < next) ∧
      (∃ turns pos, Reaches (trimBy isBlank text) turns pos ∧
        (pos = byteLength (trimBy isBlank text) ∨ pos < byteLength (trimBy isBlank text) ∧
          turnAt? (trimBy isBlank text) pos = some .unclosed)) ∧
      ∀ tag, read text = .complete tag ∨ read text = .unclosed tag → tag.IsReadOf text := by
  refine ⟨readAt?_eq text, fun turns pos h => ?_, Reaches.first.exists_last, fun tag => isReadOf_read⟩
  obtain ⟨hplace, hturns⟩ := h.isPlace
  obtain ⟨rest, hpos⟩ := hplace
  obtain ⟨found, hfound, -⟩ := exists_turnAt? hpos
  refine ⟨⟨rest, hpos⟩, hturns, found, hfound, ?_⟩
  rintro a? next rfl hlt
  exact lt_of_turnAt? hlt hfound

end Tag

end BodyText
