import BodyText.Proofs.Lines

/-!
# Codes

A code gives every character bytes of its own, four at most, which a decoder reads as that character
whatever follows; the start of them alone is an error (`Decoder.Code`). What the limit cuts off of a
character is then held back (`Charset.decodeLine_partial`), so that a line of a text has some whole
characters of it, unless a byte inside a character is that of a line end and ends the line there
(`Decoder.Code.lineOf_encode`). A text is read intact exactly when it has no such character
(`Decoder.Code.flatten_linesOf_encode_iff`).
-/

namespace BodyText

/-- A code that a decoder reads. -/
structure Decoder.Code (d : Decoder) where
  /-- The bytes of a character. -/
  encodeChar : Char → List UInt8
  /-- A character has a byte at least. -/
  encodeChar_ne_nil (c : Char) : encodeChar c ≠ []
  /-- A character has four bytes at most. -/
  length_encodeChar_le (c : Char) : (encodeChar c).length ≤ 4
  /-- Without bytes there is nothing to read. -/
  pieces_nil : d.pieces [] = []
  /-- The bytes of a character are read as it. -/
  pieces_encodeChar (c : Char) (more : List UInt8) :
    d.pieces (encodeChar c ++ more) = some c :: d.pieces more
  /-- The start of a character's bytes is one error. -/
  pieces_start {c : Char} {start more : List UInt8} (h : encodeChar c = start ++ more)
    (hstart : start ≠ []) (hmore : more ≠ []) : d.pieces start = [none]

theorem characters?_map_some (cs : List Char) : characters? (cs.map some) = some cs := by
  rw [characters?, if_pos (by simp), List.filterMap_map]
  simp

theorem replaced_map_some_append (cs : List Char) (pieces : List Piece) :
    replaced (cs.map some ++ pieces) = cs ++ replaced pieces := by
  rw [replaced, List.map_append, List.map_map]
  exact congrArg (· ++ _) (List.map_id _)

namespace Decoder.Code

variable {d : Decoder} (code : d.Code)

/-- The bytes of a text. -/
def encode (cs : List Char) : List UInt8 := cs.flatMap code.encodeChar

theorem encode_nil : code.encode [] = [] := rfl

theorem encode_cons (c : Char) (cs : List Char) :
    code.encode (c :: cs) = code.encodeChar c ++ code.encode cs := rfl

theorem encode_append (xs ys : List Char) :
    code.encode (xs ++ ys) = code.encode xs ++ code.encode ys :=
  List.flatMap_append

theorem encode_ne_nil {cs : List Char} (h : cs ≠ []) : code.encode cs ≠ [] := by
  obtain ⟨c, cs, rfl⟩ := List.exists_cons_of_ne_nil h
  exact List.append_ne_nil_of_left_ne_nil (code.encodeChar_ne_nil c) _

/-- Some bytes start a character, and are neither none nor all of its bytes. -/
def Starts (start : List UInt8) (c : Char) : Prop :=
  ∃ more, code.encodeChar c = start ++ more ∧ start ≠ [] ∧ more ≠ []

/-- The start of a character's bytes, neither none nor all of them. -/
def Partial (start : List UInt8) : Prop := ∃ c, code.Starts start c

variable {code}

theorem Partial.length_le {start : List UInt8} (h : code.Partial start) : start.length ≤ 3 := by
  obtain ⟨c, more, hchar, -, hmore⟩ := h
  have hlen := congrArg List.length hchar
  have hle := code.length_encodeChar_le c
  have hpos := List.length_pos_iff.2 hmore
  rw [List.length_append] at hlen
  omega

theorem Partial.take {start : List UInt8} (h : code.Partial start) {n : Nat} (hn : 0 < n) :
    code.Partial (start.take n) := by
  obtain ⟨c, more, hchar, hstart, hmore⟩ := h
  refine ⟨c, start.drop n ++ more, ?_, ?_, List.append_ne_nil_of_right_ne_nil _ hmore⟩
  · rw [← List.append_assoc, List.take_append_drop, hchar]
  · have hpos := List.length_pos_iff.2 hstart
    exact List.length_pos_iff.1 (by rw [List.length_take]; omega)

variable (code)

/-! ### Decoding -/

theorem pieces_encode_append (cs : List Char) (more : List UInt8) :
    d.pieces (code.encode cs ++ more) = cs.map some ++ d.pieces more := by
  induction cs with
  | nil => rfl
  | cons c cs ih =>
    rw [encode_cons, List.append_assoc, code.pieces_encodeChar, ih, List.map_cons,
      List.cons_append]

/-- The bytes of a text are decoded as that text. -/
theorem strict?_encode (cs : List Char) : d.strict? (code.encode cs) = some cs := by
  have hpieces := code.pieces_encode_append cs []
  rw [List.append_nil, code.pieces_nil, List.append_nil] at hpieces
  rw [strict?, hpieces, characters?_map_some]

variable {code}

theorem Partial.pieces {start : List UInt8} (h : code.Partial start) : d.pieces start = [none] := by
  obtain ⟨c, more, hchar, hstart, hmore⟩ := h
  exact code.pieces_start hchar hstart hmore

/-- What is cut inside a character is no text. -/
theorem Partial.strict? {start : List UInt8} (h : code.Partial start) (cs : List Char) :
    d.strict? (code.encode cs ++ start) = none := by
  rw [Decoder.strict?, code.pieces_encode_append, h.pieces, characters?, if_neg (by simp)]

/-- The degraded decoding has U+FFFD for it. -/
theorem Partial.lossy {start : List UInt8} (h : code.Partial start) (cs : List Char) :
    d.lossy (code.encode cs ++ start) = cs ++ [replacementChar] := by
  rw [Decoder.lossy, code.pieces_encode_append, h.pieces, replaced_map_some_append]
  rfl

end Decoder.Code

/-! ### Decoding a line -/

namespace Charset

section

variable {name : String} {d : Decoder} {isLatin1 : Bool} {raw : List UInt8}

theorem decodeHolding?_of_strict? (name : String) (isLatin1 : Bool) (held : Nat) {cs : List Char}
    (hne : raw.take (raw.length - held) ≠ [])
    (h : d.strict? (raw.take (raw.length - held)) = some cs) :
    (ofDecoder name d isLatin1).decodeHolding? raw held =
      some ⟨raw.take (raw.length - held), cs, false⟩ := by
  unfold decodeHolding?
  simp [hne, ofDecoder, h]

theorem decodeHolding?_of_refused {held : Nat}
    (h : d.strict? (raw.take (raw.length - held)) = none) :
    (ofDecoder name d isLatin1).decodeHolding? raw held = none := by
  unfold decodeHolding?
  simp [ofDecoder, h]

/-- Bytes that are a text as they stand hold nothing back. -/
theorem decodeLine_of_strict? (isCut : Bool) {cs : List Char} (hne : raw ≠ [])
    (h : d.strict? raw = some cs) :
    (ofDecoder name d isLatin1).decodeLine isCut raw = ⟨raw, cs, false⟩ := by
  have hraw : raw.take (raw.length - 0) = raw := List.take_length
  have hfirst : (ofDecoder name d isLatin1).decodeHolding? raw 0 = some ⟨raw, cs, false⟩ := by
    have hheld := decodeHolding?_of_strict? name isLatin1 0
      (by rwa [hraw]) (by rwa [hraw])
    rwa [hraw] at hheld
  unfold decodeLine
  cases isCut <;> simp [hfirst]

/-- Bytes that are no text, and that the limit did not cut, are decoded in the degraded way. -/
theorem decodeLine_of_refused (h : d.strict? raw = none) :
    (ofDecoder name d isLatin1).decodeLine false raw = ⟨raw, d.lossy raw, true⟩ := by
  have hraw : raw.take (raw.length - 0) = raw := List.take_length
  have hrefused : (ofDecoder name d isLatin1).decodeHolding? raw 0 = none :=
    decodeHolding?_of_refused (by rwa [hraw])
  have hnone : List.findSome? ((ofDecoder name d isLatin1).decodeHolding? raw)
      (if false = true then [0, 1, 2, 3] else [0]) = none := by simp [hrefused]
  rw [decodeLine, hnone]
  rfl

/-- What the limit cut off of a character is held back. -/
theorem decodeLine_partial (code : d.Code) {cs : List Char} {tail : List UInt8} (hcs : cs ≠ [])
    (h : code.Partial tail) :
    (ofDecoder name d isLatin1).decodeLine true (code.encode cs ++ tail) =
      ⟨code.encode cs, cs, false⟩ := by
  have hne := code.encode_ne_nil hcs
  -- all but the last `held` bytes
  have htake : ∀ held, held ≤ tail.length →
      (code.encode cs ++ tail).take ((code.encode cs ++ tail).length - held) =
        code.encode cs ++ tail.take (tail.length - held) := by
    intro held hheld
    rw [List.length_append, Nat.add_sub_assoc hheld, List.take_length_add_append]
  have hless : ∀ held, held < tail.length →
      (ofDecoder name d isLatin1).decodeHolding? (code.encode cs ++ tail) held = none := by
    intro held hheld
    apply decodeHolding?_of_refused
    rw [htake held (Nat.le_of_lt hheld)]
    exact (h.take (Nat.sub_pos_of_lt hheld)).strict? cs
  have hall : (ofDecoder name d isLatin1).decodeHolding? (code.encode cs ++ tail) tail.length =
      some ⟨code.encode cs, cs, false⟩ := by
    have htail := htake tail.length (Nat.le_refl _)
    rw [Nat.sub_self, List.take_zero, List.append_nil] at htail
    have hheld := decodeHolding?_of_strict? name isLatin1 tail.length
      (by rwa [htail]) (by rw [htail]; exact code.strict?_encode cs)
    rwa [htail] at hheld
  have hpos : 0 < tail.length := by
    obtain ⟨c, more, -, htail, -⟩ := h
    exact List.length_pos_iff.2 htail
  have hle := h.length_le
  unfold decodeLine
  obtain hlen | hlen | hlen : tail.length = 1 ∨ tail.length = 2 ∨ tail.length = 3 := by omega
  · rw [hlen] at hall hless
    simp [hless 0 (by decide), hall]
  · rw [hlen] at hall hless
    simp [hless 0 (by decide), hless 1 (by decide), hall]
  · rw [hlen] at hall hless
    simp [hless 0 (by decide), hless 1 (by decide), hless 2 (by decide), hall]

end

end Charset

/-! ### The lines of a text -/

namespace Decoder.Code

variable {d : Decoder} (code : d.Code)

/-- A character has the byte of a line end before its last byte. -/
def Splits (c : Char) : Prop := lineEnd ∈ (code.encodeChar c).dropLast

instance (c : Char) : Decidable (code.Splits c) := inferInstanceAs (Decidable (lineEnd ∈ _))

variable {code}

theorem Splits.of_starts {start : List UInt8} {c : Char} (h : code.Starts start c)
    (hlast : start.getLast? = some lineEnd) : code.Splits c := by
  obtain ⟨more, hchar, -, hmore⟩ := h
  rw [Splits, hchar, List.dropLast_append_of_ne_nil hmore]
  exact List.mem_append_left _ (List.mem_of_getLast? hlast)

/-- No whole character of a line has the byte of a line end before its last byte. -/
theorem not_splits_of_lineHead {room : Nat} {bytes tail : List UInt8} {cs : List Char}
    (h : lineHead room bytes = code.encode cs ++ tail) : ∀ c ∈ cs, ¬ code.Splits c := by
  intro c hc hsplits
  obtain ⟨before, after, rfl⟩ := List.append_of_mem hc
  obtain ⟨first, later, hdrop⟩ := List.append_of_mem hsplits
  have hchar : code.encodeChar c = first ++ lineEnd :: later ++
      [(code.encodeChar c).getLast (code.encodeChar_ne_nil c)] := by
    rw [← hdrop, List.dropLast_concat_getLast]
  generalize (code.encodeChar c).getLast _ = last at hchar
  have hbytes : lineHead room bytes = (code.encode before ++ first) ++
      lineEnd :: (later ++ last :: (code.encode after ++ tail)) := by
    rw [h, code.encode_append, code.encode_cons, hchar]
    simp only [List.append_assoc, List.cons_append, List.nil_append]
  exact absurd (eq_nil_of_lineHead hbytes) (by simp)

variable (code)

/-- The bytes of a line are those of some characters, and perhaps the start of one more, which the
limit cut or which ends in the byte of a line end. -/
theorem lineHead_encode (room : Nat) (text : List Char) :
    ∃ cs rest tail, text = cs ++ rest ∧ lineHead room (code.encode text) = code.encode cs ++ tail ∧
      (tail = [] ∨ ∃ c later, rest = c :: later ∧ code.Starts tail c ∧
        ((lineHead room (code.encode text)).length = room ∨ tail.getLast? = some lineEnd)) := by
  induction text generalizing room with
  | nil => exact ⟨[], [], [], rfl, by cases room <;> rfl, .inl rfl⟩
  | cons c text ih =>
    rw [encode_cons, lineHead_append]
    by_cases hstop : (lineHead room (code.encodeChar c)).length = room ∨
        (lineHead room (code.encodeChar c)).getLast? = some lineEnd
    · -- the line ends in this character, before it or behind it
      rw [if_pos hstop]
      have hsplit := lineHead_append_drop room (code.encodeChar c)
      generalize lineHead room (code.encodeChar c) = head at hstop hsplit
      by_cases hhead : head = []
      · exact ⟨[], c :: text, [], rfl, hhead, .inl rfl⟩
      · by_cases hall : (code.encodeChar c).drop head.length = []
        · rw [hall, List.append_nil] at hsplit
          exact ⟨[c], text, [], rfl, by simp [encode, hsplit], .inl rfl⟩
        · exact ⟨[], c :: text, head, rfl, rfl,
            .inr ⟨c, text, rfl, ⟨_, hsplit.symm, hhead, hall⟩, hstop⟩⟩
    · have hall : lineHead room (code.encodeChar c) = code.encodeChar c := lineHead_eq_self hstop
      have hlen := length_lineHead_le room (code.encodeChar c)
      rw [hall] at hlen
      obtain ⟨cs, rest, tail, htext, hhead, htail⟩ := ih (room - (code.encodeChar c).length)
      rw [if_neg hstop, hhead]
      refine ⟨c :: cs, rest, tail, by rw [htext, List.cons_append],
        by rw [encode_cons, List.append_assoc], htail.imp_right ?_⟩
      rintro ⟨c', later, hrest, hstarts, hlast⟩
      refine ⟨c', later, hrest, hstarts, hlast.imp_left fun hroom => ?_⟩
      rw [hhead] at hroom
      rw [List.length_append, hroom]
      omega

section

variable (name : String) (isLatin1 : Bool) {limit : Nat}

/-- **The first line of a text** has some whole characters of it, or, where a character has the
byte of a line end before its last byte, ends there and is degraded. -/
theorem lineOf_encode (hlimit : 4 ≤ limit) {text : List Char} (h : text ≠ []) :
    ∃ cs rest, text = cs ++ rest ∧ (∀ c ∈ cs, ¬ code.Splits c) ∧
      (cs ≠ [] ∧
          (Charset.ofDecoder name d isLatin1).lineOf limit (lineHead limit (code.encode text)) =
            ⟨code.encode cs, cs, false⟩ ∨
        ∃ c later, rest = c :: later ∧ code.Splits c ∧
          (Charset.ofDecoder name d isLatin1).lineOf limit (lineHead limit (code.encode text)) =
            ⟨lineHead limit (code.encode text), cs ++ [replacementChar], true⟩) := by
  obtain ⟨cs, rest, tail, htext, hhead, htail⟩ := code.lineHead_encode limit text
  have hraw : lineHead limit (code.encode text) ≠ [] := by
    rw [ne_eq, lineHead_eq_nil_iff (by omega)]
    exact code.encode_ne_nil h
  refine ⟨cs, rest, htext, not_splits_of_lineHead hhead, ?_⟩
  rcases htail with rfl | ⟨c, later, hrest, hstarts, hstop⟩
  · rw [List.append_nil] at hhead
    rw [hhead] at hraw ⊢
    refine .inl ⟨?_, Charset.decodeLine_of_strict? _ hraw (code.strict?_encode cs)⟩
    rintro rfl
    exact hraw rfl
  · have hpartial : code.Partial tail := ⟨c, hstarts⟩
    have hne : tail ≠ [] := by
      obtain ⟨more, -, hne, -⟩ := hstarts
      exact hne
    have hlast : (lineHead limit (code.encode text)).getLast? = tail.getLast? := by
      rw [hhead, List.getLast?_append, List.getLast?_eq_some_getLast hne, Option.some_or]
    by_cases hend : tail.getLast? = some lineEnd
    · refine .inr ⟨c, later, hrest, .of_starts hstarts hend, ?_⟩
      rw [Charset.lineOf_of_not_cut _ (.inr (hlast.trans hend)), hhead,
        Charset.decodeLine_of_refused (hpartial.strict? cs), hpartial.lossy]
    · have hlen := hstop.resolve_right hend
      have hcs : cs ≠ [] := by
        rintro rfl
        have hle := hpartial.length_le
        rw [hhead, encode_nil, List.nil_append] at hlen
        omega
      rw [Charset.lineOf_of_cut _ hlen (by rwa [hlast]), hhead]
      exact .inl ⟨hcs, Charset.decodeLine_partial code hcs hpartial⟩

/-- **The lines of a text** are its text, none of them degraded, when no character of it has the
byte of a line end before its last byte. Otherwise what stands before the first such character is
read, then U+FFFD, and a line is degraded. -/
theorem linesOf_encode (hlimit : 4 ≤ limit) (text : List Char) :
    ((∀ c ∈ text, ¬ code.Splits c) ∧
        (((Charset.ofDecoder name d isLatin1).linesOf limit (code.encode text)).map
          Line.text).flatten = text ∧
        ∀ line ∈ (Charset.ofDecoder name d isLatin1).linesOf limit (code.encode text),
          line.degraded = false) ∨
      ∃ before c after later, text = before ++ c :: after ∧ (∀ b ∈ before, ¬ code.Splits b) ∧
        code.Splits c ∧
        (((Charset.ofDecoder name d isLatin1).linesOf limit (code.encode text)).map
          Line.text).flatten = before ++ replacementChar :: later ∧
        ∃ line ∈ (Charset.ofDecoder name d isLatin1).linesOf limit (code.encode text),
          line.degraded = true := by
  induction hlen : text.length using Nat.strongRecOn generalizing text with
  | ind n ih =>
    by_cases hnil : text = []
    · rw [hnil, encode_nil, Charset.linesOf_nil]
      exact .inl ⟨fun c hc => absurd hc List.not_mem_nil, rfl,
        fun line hline => absurd hline List.not_mem_nil⟩
    · rw [Charset.linesOf_eq_cons _ (by omega) (code.encode_ne_nil hnil)]
      obtain ⟨cs, rest, rfl, hcs, ⟨hne, hline⟩ | ⟨c, later, rfl, hsplits, hline⟩⟩ :=
        code.lineOf_encode name isLatin1 hlimit hnil
      · have hdrop : (code.encode (cs ++ rest)).drop (code.encode cs).length = code.encode rest := by
          rw [encode_append, List.drop_left]
        rw [hline, hdrop, List.map_cons, List.flatten_cons]
        have hshort : rest.length < n := by
          have hpos := List.length_pos_iff.2 hne
          rw [List.length_append] at hlen
          omega
        rcases ih rest.length hshort rest rfl with ⟨hrest, hflat, hlines⟩ |
          ⟨before, c, after, later, rfl, hbefore, hsplits, hflat, line, hmem, hdegraded⟩
        · refine .inl ⟨fun c hc => ?_, by rw [hflat], ?_⟩
          · exact (List.mem_append.1 hc).elim (hcs c) (hrest c)
          · rintro line hmem
            rcases List.mem_cons.1 hmem with rfl | hmem
            · rfl
            · exact hlines line hmem
        · refine .inr ⟨cs ++ before, c, after, later, (List.append_assoc ..).symm, fun b hb => ?_,
            hsplits, by rw [hflat, List.append_assoc], line, List.mem_cons_of_mem _ hmem,
            hdegraded⟩
          exact (List.mem_append.1 hb).elim (hcs b) (hbefore b)
      · rw [hline, List.map_cons, List.flatten_cons]
        exact .inr ⟨cs, c, later, _, rfl, hcs, hsplits, List.append_assoc .., _,
          List.mem_cons_self, rfl⟩

/-- The lines of a text are its text exactly when no character of it has the byte of a line end
before its last byte. -/
theorem flatten_linesOf_encode_iff (hreplacement : ¬ code.Splits replacementChar)
    (hlimit : 4 ≤ limit) (text : List Char) :
    (((Charset.ofDecoder name d isLatin1).linesOf limit (code.encode text)).map
        Line.text).flatten = text ↔ ∀ c ∈ text, ¬ code.Splits c := by
  rcases code.linesOf_encode name isLatin1 hlimit text with ⟨hnone, hflat, -⟩ |
    ⟨before, c, after, later, htext, -, hsplits, hflat, -⟩
  · exact iff_of_true hflat hnone
  · refine iff_of_false ?_ fun hnone => hnone c ?_ hsplits
    · rw [hflat, htext]
      intro hsame
      obtain ⟨rfl, -⟩ := List.cons.inj (List.append_cancel_left hsame)
      exact hreplacement hsplits
    · rw [htext]
      exact List.mem_append_right before List.mem_cons_self

variable {text : List Char}

/-- Where no character has the byte of a line end before its last byte, no line is degraded. -/
theorem degraded_linesOf_encode (hlimit : 4 ≤ limit) (h : ∀ c ∈ text, ¬ code.Splits c) :
    ∀ line ∈ (Charset.ofDecoder name d isLatin1).linesOf limit (code.encode text),
      line.degraded = false := by
  rcases code.linesOf_encode name isLatin1 hlimit text with ⟨-, -, hlines⟩ |
    ⟨before, c, after, later, htext, -, hsplits, -⟩
  · exact hlines
  · exact absurd hsplits (h c (htext ▸ List.mem_append_right before List.mem_cons_self))

/-- The first character that has the byte of a line end before its last byte is read as U+FFFD,
after all that stands before it. -/
theorem exists_flatten_linesOf_encode (hlimit : 4 ≤ limit) (h : ∃ c ∈ text, code.Splits c) :
    ∃ later, (((Charset.ofDecoder name d isLatin1).linesOf limit (code.encode text)).map
      Line.text).flatten =
        text.takeWhile (fun c => ¬ code.Splits c) ++ replacementChar :: later := by
  rcases code.linesOf_encode name isLatin1 hlimit text with ⟨hnone, -⟩ |
    ⟨before, c, after, later, rfl, hbefore, hsplits, hflat, -⟩
  · obtain ⟨c, hc, hsplits⟩ := h
    exact absurd hsplits (hnone c hc)
  · refine ⟨later, ?_⟩
    rw [hflat, List.takeWhile_append_of_pos fun b hb => decide_eq_true (hbefore b hb),
      List.takeWhile_cons_of_neg (by simp [hsplits]), List.append_nil]

end

end Decoder.Code

end BodyText
