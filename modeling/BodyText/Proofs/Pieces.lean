import BodyText.Charset.Encoding
import BodyText.Proofs.Scan
import BodyText.Proofs.Utf8

/-!
# The pieces of a text

Where a reader cuts a text, in terms of the text. The lines of a text in UTF-8 are its pieces
(`Charset.linesOf_encode`): each takes as many whole characters as the limit has room for, and none
past a line end. The lines of a body in windows-1252 are cut between any two bytes, each of which
is a character. The lines of any body, under a limit that no line of it reaches, are those that its
line ends make, also when they are decoded in the degraded way.
-/

namespace BodyText

/-! ### Cutting a text -/

/-- The first piece of a text: through its first line end, and of `room` bytes at most. -/
def textHead : Nat → List Char → List Char
  | _, [] => []
  | room, c :: cs =>
    if room < c.utf8Size then []
    else if c = '\n' then [c]
    else c :: textHead (room - c.utf8Size) cs

theorem textHead_append_drop (room : Nat) (text : List Char) :
    textHead room text ++ text.drop (textHead room text).length = text := by
  fun_induction textHead room text <;> simp_all

theorem textHead_ne_nil {room : Nat} {text : List Char} (hroom : 4 ≤ room) (h : text ≠ []) :
    textHead room text ≠ [] := by
  cases text with
  | nil => exact absurd rfl h
  | cons c cs =>
    have hsize := c.utf8Size_le_four
    rw [textHead, if_neg (by omega)]
    split <;> exact List.cons_ne_nil _ _

theorem lineText_textHead (room : Nat) (text : List Char) : LineText (textHead room text) := by
  fun_induction textHead room text with
  | case1 => exact fun xs ys h => by simp at h
  | case2 => exact fun xs ys h => by simp at h
  | case3 => exact lineText_concat List.not_mem_nil
  | case4 room c cs _ hc ih =>
    have hno : '\n' ∉ [c] := by simpa using Ne.symm hc
    exact LineText.append hno ih

/-- The pieces into which a limit cuts a text. -/
def pieces (limit : Nat) (text : List Char) : List (List Char) :=
  match known (textHead limit text) with
  | ⟨[], _⟩ => []
  | ⟨c :: cs, _⟩ => (c :: cs) :: pieces limit (text.drop (c :: cs).length)
termination_by text.length
decreasing_by
  have hhead : textHead limit text = c :: cs := ‹_›
  have hlen := congrArg List.length (textHead_append_drop limit text)
  rw [hhead, List.length_append, List.length_cons] at hlen
  rw [List.length_cons]
  omega

theorem pieces_nil (limit : Nat) : pieces limit [] = [] := by
  rw [pieces]
  rfl

theorem pieces_eq_cons {limit : Nat} (hlimit : 4 ≤ limit) {text : List Char} (h : text ≠ []) :
    pieces limit text =
      textHead limit text :: pieces limit (text.drop (textHead limit text).length) := by
  have hne := textHead_ne_nil hlimit h
  rw [pieces]
  split
  · rename_i hd _
    exact absurd hd hne
  · rename_i hd _
    rw [hd]

/-- Induction over the pieces of a text. -/
theorem pieces_induction {limit : Nat} (hlimit : 4 ≤ limit) {motive : List Char → Prop}
    (nil : motive [])
    (cons : ∀ text, text ≠ [] → motive (text.drop (textHead limit text).length) → motive text)
    (text : List Char) : motive text := by
  induction hlen : text.length using Nat.strongRecOn generalizing text with
  | ind n ih =>
    by_cases h : text = []
    · exact h ▸ nil
    · refine cons text h (ih _ ?_ _ rfl)
      have hpos := List.length_pos_iff.2 (textHead_ne_nil hlimit h)
      have hne := List.length_pos_iff.2 h
      rw [List.length_drop]
      omega

/-- Cutting loses nothing. -/
theorem flatten_pieces {limit : Nat} (hlimit : 4 ≤ limit) (text : List Char) :
    (pieces limit text).flatten = text := by
  induction text using pieces_induction hlimit with
  | nil => rw [pieces_nil, List.flatten_nil]
  | cons text h ih => rw [pieces_eq_cons hlimit h, List.flatten_cons, ih, textHead_append_drop]

/-- Pieces are parts of lines. -/
theorem lineText_pieces {limit : Nat} (hlimit : 4 ≤ limit) (text : List Char) :
    ∀ piece ∈ pieces limit text, LineText piece := by
  induction text using pieces_induction hlimit with
  | nil =>
    rw [pieces_nil]
    intro piece hpiece
    exact absurd hpiece List.not_mem_nil
  | cons text h ih =>
    rw [pieces_eq_cons hlimit h]
    intro piece hpiece
    rcases List.mem_cons.1 hpiece with rfl | hpiece
    · exact lineText_textHead limit text
    · exact ih piece hpiece

/-! ### Cutting its bytes -/

namespace Utf8

/-- Only a line end has the byte of a line end. -/
theorem not_mem_of_completes {c : Char} {s : State} {bytes : List UInt8} (h : Completes c s bytes)
    (hs : s.Sound) (hc : c ≠ '\n') : lineEnd ∉ bytes := by
  induction h with
  | @last s b hstep =>
    intro hmem
    obtain rfl := List.mem_singleton.1 hmem
    have hpieces := congrArg Prod.fst ((step_lineEnd hs).symm.trans hstep)
    have hlast := congrArg List.getLast? hpieces
    rw [List.getLast?_concat] at hlast
    exact hc (Option.some.inj (Option.some.inj hlast)).symm
  | @more s b bs value missing low high hstep _ ih =>
    intro hmem
    rcases List.mem_cons.1 hmem with rfl | hmem
    · have hstate := congrArg Prod.snd ((step_lineEnd hs).symm.trans hstep)
      cases hstate
    · have hsound := (sound_step hs b).1
      rw [hstep] at hsound
      exact ih hsound hmem

theorem not_mem_encodeChar {c : Char} (h : c ≠ '\n') : lineEnd ∉ String.utf8EncodeChar c :=
  not_mem_of_completes (completes_encodeChar c) trivial h

theorem Partial.not_mem {tail : List UInt8} (h : Partial tail) : lineEnd ∉ tail := by
  obtain ⟨c, more, hchar, htail, hmore⟩ := h
  have hc : c ≠ '\n' := by
    rintro rfl
    have hlen := congrArg List.length hchar
    have := List.length_pos_iff.2 htail
    have := List.length_pos_iff.2 hmore
    rw [List.length_append, show (String.utf8EncodeChar '\n').length = 1 from rfl] at hlen
    omega
  intro hmem
  exact not_mem_encodeChar hc (hchar ▸ List.mem_append_left more hmem)

/-- The bytes of a line are those of a piece of the text, and perhaps the start of one character
more, which the limit cut. -/
theorem lineHead_encode (room : Nat) (text : List Char) :
    ∃ tail, lineHead room (encode text) = encode (textHead room text) ++ tail ∧
      (tail = [] ∨ Partial tail ∧ (lineHead room (encode text)).length = room) := by
  induction text generalizing room with
  | nil => exact ⟨[], by cases room <;> rfl, .inl rfl⟩
  | cons c cs ih =>
    rw [encode_cons, textHead]
    have hlen := String.length_utf8EncodeChar c
    by_cases hroom : room < c.utf8Size
    · rw [if_pos hroom, encode_nil]
      refine ⟨lineHead room (String.utf8EncodeChar c ++ encode cs), rfl, ?_⟩
      by_cases hzero : room = 0
      · exact .inl (by rw [hzero, lineHead])
      · -- the limit cuts this character
        have hc : c ≠ '\n' := by
          rintro rfl
          rw [show Char.utf8Size '\n' = 1 from rfl] at hroom
          omega
        have htake : ((String.utf8EncodeChar c).take room).length = room := by
          rw [List.length_take]
          omega
        have hhead : lineHead room (String.utf8EncodeChar c ++ encode cs) =
            (String.utf8EncodeChar c).take room := by
          conv => lhs; rw [← List.take_append_drop room (String.utf8EncodeChar c)]
          rw [List.append_assoc, lineHead_append_of_not_mem (by omega)
            fun hmem => not_mem_encodeChar hc (List.mem_of_mem_take hmem), htake, Nat.sub_self,
            lineHead, List.append_nil]
        rw [hhead]
        refine .inr ⟨⟨c, (String.utf8EncodeChar c).drop room, (List.take_append_drop ..).symm,
          ?_, ?_⟩, htake⟩
        · exact List.length_pos_iff.1 (by omega)
        · exact List.length_pos_iff.1 (by rw [List.length_drop]; omega)
    · rw [if_neg hroom]
      by_cases hc : c = '\n'
      · subst hc
        rw [if_pos rfl]
        have hpos : 0 < room := Nat.lt_of_lt_of_le (Char.utf8Size_pos '\n') (Nat.not_lt.1 hroom)
        obtain ⟨room, rfl⟩ := Nat.exists_eq_add_one.2 hpos
        exact ⟨[], rfl, .inl rfl⟩
      · rw [if_neg hc, encode_cons]
        obtain ⟨tail, hhead, htail⟩ := ih (room - c.utf8Size)
        rw [lineHead_append_of_not_mem (by omega) (not_mem_encodeChar hc), hlen, hhead]
        refine ⟨tail, (List.append_assoc ..).symm, htail.imp_right fun hpartial => ⟨hpartial.1, ?_⟩⟩
        have hrest := hpartial.2
        rw [hhead] at hrest
        rw [List.length_append, hlen, hrest]
        omega

end Utf8

/-! ### The lines of a body -/

namespace Charset

/-- The first line of a text is its first piece. -/
theorem lineOf_encode {limit : Nat} (hlimit : 4 ≤ limit) {text : List Char} (h : text ≠ []) :
    utf8.lineOf limit (lineHead limit (Utf8.encode text)) =
      ⟨Utf8.encode (textHead limit text), textHead limit text, false⟩ := by
  have hne := textHead_ne_nil hlimit h
  obtain ⟨tail, hhead, htail⟩ := Utf8.lineHead_encode limit text
  have hraw : lineHead limit (Utf8.encode text) ≠ [] := by
    rw [ne_eq, lineHead_eq_nil_iff (by omega)]
    exact Utf8.encode_ne_nil h
  rcases htail with rfl | ⟨hpartial, hlen⟩
  · rw [List.append_nil] at hhead
    rw [hhead] at hraw ⊢
    exact decodeLine_of_strict? _ hraw (Utf8.code.strict?_encode _)
  · -- the limit cut the line, since its last byte is no line end
    have hlast : (lineHead limit (Utf8.encode text)).getLast? ≠ some lineEnd := by
      obtain ⟨c, more, -, hne', -⟩ := id hpartial
      rw [hhead, List.getLast?_append, List.getLast?_eq_some_getLast hne', Option.some_or,
        ← List.getLast?_eq_some_getLast hne']
      intro hlast
      exact hpartial.not_mem (List.mem_of_getLast? hlast)
    rw [lineOf_of_cut _ hlen hlast, hhead]
    exact decodeLine_partial Utf8.code hne hpartial

/-- **The lines of a text in UTF-8** are its pieces, none of them degraded. -/
theorem linesOf_encode {limit : Nat} (hlimit : 4 ≤ limit) (text : List Char) :
    utf8.linesOf limit (Utf8.encode text) =
      (pieces limit text).map fun piece => ⟨Utf8.encode piece, piece, false⟩ := by
  induction text using pieces_induction hlimit with
  | nil => rw [pieces_nil, Utf8.encode_nil, linesOf_nil, List.map_nil]
  | cons text h ih =>
    have hsplit := congrArg Utf8.encode (textHead_append_drop limit text)
    rw [Utf8.encode_append] at hsplit
    have hdrop : (Utf8.encode text).drop (Utf8.encode (textHead limit text)).length =
        Utf8.encode (text.drop (textHead limit text).length) := by
      rw [← hsplit, List.drop_left]
    rw [linesOf_eq_cons utf8 (by omega) (Utf8.encode_ne_nil h), lineOf_encode hlimit h, pieces_eq_cons hlimit h,
      List.map_cons, hdrop, ih]

end Charset

/-! ### Lines that the limit does not cut -/

/-- Some texts are the lines of a text, each with its line end. -/
inductive AreLines : List (List Char) → List Char → Prop
  /-- No lines. -/
  | nil : AreLines [] []
  /-- A last line without a line end. -/
  | last {line : List Char} : '\n' ∉ line → AreLines [line] line
  /-- A line before others. -/
  | cons {line text : List Char} {lines : List (List Char)} : '\n' ∉ line →
      AreLines lines text → AreLines ((line ++ ['\n']) :: lines) (line ++ '\n' :: text)

namespace AreLines

variable {lines : List (List Char)} {text : List Char}

theorem flatten_eq (h : AreLines lines text) : lines.flatten = text := by
  induction h with
  | nil => rfl
  | last _ => simp
  | cons _ _ ih => rw [List.flatten_cons, ih, List.append_assoc, List.singleton_append]

theorem lineText (h : AreLines lines text) : ∀ line ∈ lines, LineText line := by
  induction h with
  | nil => exact fun line hline => absurd hline List.not_mem_nil
  | @last line hno =>
    intro line' hline'
    obtain rfl := List.mem_singleton.1 hline'
    exact lineText_of_not_mem hno
  | @cons line text lines hno _ ih =>
    intro line' hline'
    rcases List.mem_cons.1 hline' with rfl | hline'
    · exact lineText_concat hno
    · exact ih line' hline'

/-- Lines are parted by line ends. -/
theorem getLast?_of_append (h : AreLines lines text) {first later : List (List Char)}
    (hlines : lines = first ++ later) :
    first.flatten = [] ∨ first.flatten.getLast? = some '\n' ∨ later = [] := by
  induction h generalizing first with
  | nil =>
    obtain ⟨rfl, -⟩ := List.append_eq_nil_iff.1 hlines.symm
    exact .inl rfl
  | @last line _ =>
    rcases List.append_eq_cons_iff.1 hlines.symm with ⟨rfl, -⟩ | ⟨first, rfl, hnil⟩
    · exact .inl rfl
    · exact .inr (.inr (List.append_eq_nil_iff.1 hnil.symm).2)
  | @cons line text lines _ _ ih =>
    rcases List.append_eq_cons_iff.1 hlines.symm with ⟨rfl, -⟩ | ⟨first, rfl, hlines⟩
    · exact .inl rfl
    · rcases ih (List.cons.inj hlines).2 with hnil | hlast | hlater
      · exact .inr (.inl (by rw [List.flatten_cons, hnil, List.append_nil, List.getLast?_concat]))
      · refine .inr (.inl ?_)
        rw [List.flatten_cons, List.getLast?_append, hlast, Option.some_or]
      · exact .inr (.inr hlater)

end AreLines

/-- What has room and no line end is all in the first piece. -/
theorem textHead_append {room : Nat} {line : List Char} (hno : '\n' ∉ line)
    (hroom : byteLength line ≤ room) (rest : List Char) :
    textHead room (line ++ rest) = line ++ textHead (room - byteLength line) rest := by
  induction line generalizing room with
  | nil => rfl
  | cons c line ih =>
    rw [byteLength] at hroom
    rw [List.mem_cons, not_or] at hno
    rw [List.cons_append, textHead, if_neg (by omega), if_neg (Ne.symm hno.1),
      ih hno.2 (by omega), byteLength, Nat.sub_add_eq, List.cons_append]

/-- Each line of a text, with its line end, has room within the limit. -/
def Fits (limit : Nat) (text : List Char) : Prop :=
  ∀ line, line <:+: text → LineText line → byteLength line ≤ limit

theorem Fits.of_suffix {limit : Nat} {text rest : List Char} (h : Fits limit text)
    (hrest : rest <:+ text) : Fits limit rest :=
  fun line hline => h line (hline.trans hrest.isInfix)

/-- A text that has room within the limit has no line that has not. -/
theorem fits_of_byteLength_le {limit : Nat} {text : List Char} (h : byteLength text ≤ limit) :
    Fits limit text := by
  rintro line ⟨before, after, rfl⟩ -
  rw [byteLength_append, byteLength_append] at h
  omega

/-- **The pieces of a text whose lines fit** are its lines. -/
theorem areLines_pieces {limit : Nat} (hlimit : 4 ≤ limit) {text : List Char}
    (h : Fits limit text) : AreLines (pieces limit text) text := by
  induction hlen : text.length using Nat.strongRecOn generalizing text with
  | ind n ih =>
    by_cases hmem : '\n' ∈ text
    · obtain ⟨line, rest, rfl, hno⟩ := List.eq_append_cons_of_mem hmem
      have hroom := h _ ⟨[], rest, by simp⟩ (lineText_concat hno)
      rw [byteLength_append] at hroom
      have hone : byteLength ['\n'] = 1 := rfl
      have hhead : textHead limit (line ++ '\n' :: rest) = line ++ ['\n'] := by
        rw [textHead_append hno (by omega), textHead,
          if_neg (by rw [show Char.utf8Size '\n' = 1 from rfl]; omega), if_pos rfl]
      have hdrop : (line ++ '\n' :: rest).drop (line ++ ['\n']).length = rest := by
        rw [show line ++ '\n' :: rest = (line ++ ['\n']) ++ rest by simp, List.drop_left]
      rw [pieces_eq_cons hlimit (by simp), hhead, hdrop]
      refine .cons hno (ih rest.length ?_ (h.of_suffix ⟨line ++ ['\n'], by simp⟩) rfl)
      rw [← hlen, List.length_append, List.length_cons]
      omega
    · by_cases hnil : text = []
      · rw [hnil, pieces_nil]
        exact .nil
      · have hroom := h text List.infix_rfl (lineText_of_not_mem hmem)
        have hhead : textHead limit text = text := by
          have happend := textHead_append hmem hroom []
          rwa [List.append_nil, textHead, List.append_nil] at happend
        rw [pieces_eq_cons hlimit hnil, hhead, List.drop_length, pieces_nil]
        exact .last hmem

namespace Charset

/-- Bytes that are no text are decoded in the degraded way, all of them. -/
theorem text_decodeLine_utf8 {raw : List UInt8} (hne : raw ≠ []) :
    (utf8.decodeLine false raw).text = Decoder.utf8.lossy raw := by
  cases hstrict : Decoder.utf8.strict? raw with
  | some cs =>
    rw [utf8, decodeLine_of_strict? false hne hstrict]
    exact (Decoder.lossy_of_strict? _ hstrict).symm
  | none => rw [utf8, decodeLine_of_refused hstrict]

/-- A line that the limit does not cut holds all of its bytes, decoded. -/
theorem lineOf_of_uncut (limit : Nat) {raw : List UInt8} (hne : raw ≠ [])
    (h : raw.length ≠ limit ∨ raw.getLast? = some lineEnd) :
    (utf8.lineOf limit raw).bytes = raw ∧
      (utf8.lineOf limit raw).text = Decoder.utf8.lossy raw := by
  rw [lineOf_of_not_cut _ h]
  exact ⟨bytes_decodeLine _ raw, text_decodeLine_utf8 hne⟩

/-- A line end within the limit ends the first line. -/
theorem linesOf_append_lineEnd {limit : Nat} {line rest : List UInt8} (hno : lineEnd ∉ line)
    (hroom : line.length < limit) :
    (utf8.linesOf limit (line ++ lineEnd :: rest)).map Line.text =
      (Decoder.utf8.lossy line ++ ['\n']) :: (utf8.linesOf limit rest).map Line.text := by
  have hhead : lineHead limit (line ++ lineEnd :: rest) = line ++ [lineEnd] := by
    obtain ⟨room, hroom'⟩ := Nat.exists_eq_add_one.2 (Nat.sub_pos_of_lt hroom)
    rw [lineHead_append_of_not_mem (Nat.le_of_lt hroom) hno, hroom', lineHead, if_pos rfl]
  have hdrop : (line ++ lineEnd :: rest).drop (line ++ [lineEnd]).length = rest := by
    rw [show line ++ lineEnd :: rest = (line ++ [lineEnd]) ++ rest by simp, List.drop_left]
  have hline : line ++ [lineEnd] ≠ [] := by simp
  obtain ⟨hbytes, htext⟩ := lineOf_of_uncut limit hline (.inr List.getLast?_concat)
  rw [linesOf_eq_cons _ (Nat.zero_lt_of_lt hroom) (by simp), hhead, hbytes, hdrop, List.map_cons,
    htext, Utf8.lossy_append_lineEnd]
  rfl

/-- Without a line end, what is within the limit is one line. -/
theorem linesOf_of_not_mem {limit : Nat} {bytes : List UInt8} (hne : bytes ≠ [])
    (hno : lineEnd ∉ bytes) (hroom : bytes.length < limit) :
    (utf8.linesOf limit bytes).map Line.text = [Decoder.utf8.lossy bytes] := by
  have hhead : lineHead limit bytes = bytes := by
    have happend := lineHead_append_of_not_mem (Nat.le_of_lt hroom) hno []
    rwa [List.append_nil, (lineHead_eq_nil_iff (Nat.sub_pos_of_lt hroom)).2 rfl,
      List.append_nil] at happend
  obtain ⟨hbytes, htext⟩ := lineOf_of_uncut limit hne (.inl (Nat.ne_of_lt hroom))
  rw [linesOf_eq_cons _ (Nat.zero_lt_of_lt hroom) hne, hhead, hbytes, List.drop_length,
    linesOf_nil, List.map_cons, htext, List.map_nil]

/-- **The lines of a body that the limit does not cut** are those of its text, decoded in the degraded
way where that must be. -/
theorem areLines_linesOf {limit : Nat} {bytes : List UInt8}
    (h : ∀ line ∈ bytes.splitOn lineEnd, line.length < limit) :
    AreLines ((utf8.linesOf limit bytes).map Line.text) (Decoder.utf8.lossy bytes) := by
  induction hlen : bytes.length using Nat.strongRecOn generalizing bytes with
  | ind n ih =>
    by_cases hmem : lineEnd ∈ bytes
    · obtain ⟨line, rest, rfl, hno⟩ := List.eq_append_cons_of_mem hmem
      rw [List.splitOn_append_cons_self_of_not_mem hno] at h
      rw [linesOf_append_lineEnd hno (h line List.mem_cons_self), Utf8.lossy_append_lineEnd]
      refine .cons (Utf8.not_mem_lossy hno) (ih rest.length ?_ ?_ rfl)
      · rw [← hlen, List.length_append, List.length_cons]
        omega
      · intro line' hline'
        exact h line' (List.mem_cons_of_mem line hline')
    · rw [List.splitOn_eq_singleton hmem] at h
      by_cases hnil : bytes = []
      · rw [hnil, linesOf_nil]
        exact .nil
      · rw [linesOf_of_not_mem hnil hmem (h bytes List.mem_cons_self)]
        exact .last (Utf8.not_mem_lossy hmem)

end Charset

/-! ### Single bytes -/

/-- A code page that gives every byte a character, and a line end to no byte but that of a line
end. -/
def CodePage.Total (page : CodePage) : Prop :=
  ∀ b, ∃ c, page.piece b = some c ∧ (c = '\n' → b = lineEnd)

/-- **Every byte of windows-1252 is a character.** -/
theorem total_windows1252 : CodePage.windows1252.Total := by
  have hall : ∀ n < 256, (CodePage.windows1252.piece (UInt8.ofNat n)).isSome = true ∧
      (CodePage.windows1252.piece (UInt8.ofNat n) = some '\n' → UInt8.ofNat n = lineEnd) := by
    decide +kernel
  intro b
  obtain ⟨hsome, hend⟩ := hall b.toNat b.toNat_lt
  rw [UInt8.ofNat_toNat] at hsome hend
  obtain ⟨c, hc⟩ := Option.isSome_iff_exists.1 hsome
  exact ⟨c, hc, fun hnewline => hend (hnewline ▸ hc)⟩

namespace CodePage

variable {page : CodePage}

/-- The character of a byte. -/
def char (page : CodePage) (b : UInt8) : Char := (page.piece b).getD replacementChar

theorem pieces_ofCodePage (page : CodePage) (bytes : List UInt8) :
    (Decoder.ofCodePage page).pieces bytes = bytes.map page.piece := by
  induction bytes with
  | nil => rfl
  | cons b bs ih => exact congrArg (page.piece b :: ·) ih

theorem lossy_ofCodePage (page : CodePage) (bytes : List UInt8) :
    (Decoder.ofCodePage page).lossy bytes = bytes.map page.char := by
  rw [Decoder.lossy, pieces_ofCodePage, replaced, List.map_map]
  rfl

theorem strict?_ofCodePage (h : page.Total) (bytes : List UInt8) :
    (Decoder.ofCodePage page).strict? bytes = some (bytes.map page.char) := by
  have hpiece : bytes.map page.piece = (bytes.map page.char).map some := by
    rw [List.map_map]
    apply List.map_congr_left
    intro b _
    obtain ⟨c, hc, -⟩ := h b
    rw [Function.comp_apply, char, hc, Option.getD_some]
  rw [Decoder.strict?, pieces_ofCodePage, hpiece, characters?, if_pos (by simp),
    List.filterMap_map]
  simp

theorem lineText_map_char (h : page.Total) (limit : Nat) (bytes : List UInt8) :
    LineText ((lineHead limit bytes).map page.char) := by
  intro xs ys htext
  obtain ⟨before, rest, hhead, rfl, hrest⟩ := List.map_eq_append_iff.1 htext
  obtain ⟨b, after, rfl, hb, rfl⟩ := List.map_eq_cons_iff.1 hrest
  obtain ⟨c, hc, hend⟩ := h b
  rw [char, hc, Option.getD_some] at hb
  rw [hend hb] at hhead
  rw [eq_nil_of_lineHead hhead, List.map_nil]

end CodePage

/-- **The lines of a body in a single-byte charset**, of which each byte is a character. -/
theorem Charset.linesOf_ofCodePage (name : String) {page : CodePage} (isLatin1 : Bool)
    (h : page.Total) {limit : Nat} (hlimit : 0 < limit) (bytes : List UInt8) :
    (∀ line ∈ (ofDecoder name (.ofCodePage page) isLatin1).linesOf limit bytes,
        line.degraded = false ∧ LineText line.text) ∧
      (((ofDecoder name (.ofCodePage page) isLatin1).linesOf limit bytes).map
        Line.text).flatten = (Decoder.ofCodePage page).lossy bytes := by
  induction hlen : bytes.length using Nat.strongRecOn generalizing bytes with
  | ind n ih =>
    by_cases hnil : bytes = []
    · rw [hnil, linesOf_nil]
      exact ⟨fun line hline => absurd hline List.not_mem_nil, rfl⟩
    · have hhead : lineHead limit bytes ≠ [] := fun hhead =>
        hnil ((lineHead_eq_nil_iff hlimit).1 hhead)
      have hline : (ofDecoder name (.ofCodePage page) isLatin1).lineOf limit (lineHead limit bytes) =
          ⟨lineHead limit bytes, (lineHead limit bytes).map page.char, false⟩ :=
        decodeLine_of_strict? _ hhead (CodePage.strict?_ofCodePage h _)
      have hpos := List.length_pos_iff.2 hhead
      have hbytes := lineHead_append_drop limit bytes
      obtain ⟨hlater, hflat⟩ := ih (bytes.drop (lineHead limit bytes).length).length
        (by rw [List.length_drop]; have := List.length_pos_iff.2 hnil; omega) _ rfl
      rw [linesOf_eq_cons _ hlimit hnil, hline]
      refine ⟨fun line hmem => ?_, ?_⟩
      · rcases List.mem_cons.1 hmem with rfl | hmem
        · exact ⟨rfl, CodePage.lineText_map_char h limit bytes⟩
        · exact hlater line hmem
      · rw [List.map_cons, List.flatten_cons, hflat, CodePage.lossy_ofCodePage,
          CodePage.lossy_ofCodePage, ← List.map_append, hbytes]

end BodyText
