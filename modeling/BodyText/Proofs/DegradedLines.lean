import BodyText.Proofs.Utf8Cuts
import BodyText.Proofs.ValidText

/-!
# Lines that are no text

Bodies with bytes that are no text in UTF-8. A line is decoded in the degraded way when its bytes are
no text and, where the limit cut it, neither are all but its last one, two or three
(`Charset.decodeLine_utf8_cases`). So a character that the limit cuts is held back only in a line
that is a text but for it; where something else in the line is none, the character is lost. A body is
read as it would be at once exactly when this does not happen
(`Reader.run_start_eq_lossy_iff`).
-/

namespace BodyText

namespace Charset

/-! ### One line -/

/-- Some bytes are held back only behind a text. -/
theorem decodeHolding?_utf8_eq_some {raw : List UInt8} {held : Nat} {line : Line}
    (h : utf8.decodeHolding? raw held = some line) :
    ∃ text, text ≠ [] ∧ raw.take (raw.length - held) = Utf8.encode text ∧
      line = ⟨Utf8.encode text, text, false⟩ := by
  obtain ⟨hne, hbytes⟩ := decodeHolding?_bytes h
  rw [hbytes] at hne
  cases hstrict : Decoder.utf8.strict? (raw.take (raw.length - held)) with
  | none =>
    rw [utf8, decodeHolding?_of_refused hstrict] at h
    cases h
  | some text =>
    have htake := Utf8.strict?_eq_some_iff.1 hstrict
    rw [utf8, decodeHolding?_of_strict? _ _ held hne hstrict, htake] at h
    refine ⟨text, ?_, htake, (Option.some.inj h).symm⟩
    rintro rfl
    exact hne htake

/-- A text is not refused, and some bytes may be held back behind it. -/
theorem decodeHolding?_utf8_ne_none {raw more : List UInt8} {text : List Char} (htext : text ≠ [])
    (hraw : raw = Utf8.encode text ++ more) : utf8.decodeHolding? raw more.length ≠ none := by
  have htake : raw.take (raw.length - more.length) = Utf8.encode text := by
    rw [hraw, List.length_append, Nat.add_sub_cancel, List.take_left]
  rw [utf8, decodeHolding?_of_strict? _ _ _ (htake ▸ Utf8.encode_ne_nil htext)
    (Utf8.strict?_eq_some_iff.2 htake)]
  exact Option.some_ne_none _

/-- A line holds a text, and leaves what is held back; or it holds all of its bytes, which are no text,
not even without the last few of them where it was cut. -/
theorem decodeLine_utf8_cases (isCut : Bool) {raw : List UInt8} (hne : raw ≠ []) :
    (∃ text more, text ≠ [] ∧ raw = Utf8.encode text ++ more ∧
        utf8.decodeLine isCut raw = ⟨Utf8.encode text, text, false⟩) ∨
      utf8.decodeLine isCut raw = ⟨raw, Decoder.utf8.lossy raw, true⟩ ∧ ¬ Utf8.IsText raw ∧
        (isCut = true → ∀ text more, text ≠ [] → raw = Utf8.encode text ++ more →
          3 < more.length) := by
  cases hfound : List.findSome? (utf8.decodeHolding? raw) (if isCut then [0, 1, 2, 3] else [0]) with
  | some line =>
    left
    obtain ⟨held, -, hline⟩ := List.exists_of_findSome?_eq_some hfound
    obtain ⟨text, htext, htake, rfl⟩ := decodeHolding?_utf8_eq_some hline
    refine ⟨text, raw.drop (raw.length - held), htext, ?_, ?_⟩
    · rw [← htake, List.take_append_drop]
    · rw [decodeLine, hfound]
      rfl
  | none =>
    right
    rw [List.findSome?_eq_none_iff] at hfound
    have hnone : List.findSome? (utf8.decodeHolding? raw)
        (if isCut then [0, 1, 2, 3] else [0]) = none := List.findSome?_eq_none_iff.2 hfound
    refine ⟨?_, ?_, ?_⟩
    · rw [decodeLine, hnone]
      rfl
    · rintro ⟨text, rfl⟩
      have htext : text ≠ [] := by
        rintro rfl
        exact hne rfl
      refine decodeHolding?_utf8_ne_none htext (List.append_nil _).symm (hfound 0 ?_)
      cases isCut <;> simp
    · rintro rfl text more htext hraw
      by_contra hle
      refine decodeHolding?_utf8_ne_none htext hraw (hfound more.length ?_)
      simp only [if_true, List.mem_cons, List.not_mem_nil, or_false]
      omega

variable {limit : Nat}

/-- A line that is not degraded is a text. -/
theorem isText_of_not_degraded {raw : List UInt8} (hne : raw ≠ [])
    (h : (utf8.lineOf limit raw).degraded = false) :
    Utf8.IsText (utf8.lineOf limit raw).bytes := by
  rw [lineOf] at h ⊢
  rcases decodeLine_utf8_cases _ hne with ⟨text, more, -, -, hline⟩ | ⟨hline, -⟩
  · rw [hline]
    exact ⟨text, rfl⟩
  · rw [hline] at h
    cases h

/-- A degraded line has all of its bytes, and they are no text. -/
theorem bytes_lineOf_of_degraded {raw : List UInt8} (hne : raw ≠ [])
    (h : (utf8.lineOf limit raw).degraded = true) :
    (utf8.lineOf limit raw).bytes = raw ∧ ¬ Utf8.IsText raw := by
  rw [lineOf] at h ⊢
  rcases decodeLine_utf8_cases _ hne with ⟨text, more, -, -, hline⟩ | ⟨hline, hnot, -⟩
  · rw [hline] at h
    cases h
  · rw [hline]
    exact ⟨rfl, hnot⟩

/-- The text of a line is what its bytes are in the degraded way. -/
theorem text_lineOf_utf8 {raw : List UInt8} (hne : raw ≠ []) :
    (utf8.lineOf limit raw).text = Decoder.utf8.lossy (utf8.lineOf limit raw).bytes := by
  rw [lineOf]
  rcases decodeLine_utf8_cases _ hne with ⟨text, more, -, -, hline⟩ | ⟨hline, -⟩
  · rw [hline]
    exact (Decoder.lossy_of_strict? _ (Utf8.strict?_eq_some_iff.2 rfl)).symm
  · rw [hline]

/-! ### All lines -/

/-- Induction over the lines of some bytes. -/
theorem linesOf_induction (charset : Charset) (hlimit : 0 < limit) {motive : List UInt8 → Prop}
    (nil : motive [])
    (cons : ∀ bytes, bytes ≠ [] →
      motive (bytes.drop (charset.lineOf limit (lineHead limit bytes)).bytes.length) →
      motive bytes)
    (bytes : List UInt8) : motive bytes := by
  induction hlen : bytes.length using Nat.strongRecOn generalizing bytes with
  | ind n ih =>
    by_cases h : bytes = []
    · exact h ▸ nil
    · have hhead : lineHead limit bytes ≠ [] := fun hnil => h ((lineHead_eq_nil_iff hlimit).1 hnil)
      refine cons bytes h (ih _ ?_ _ rfl)
      have hline := List.length_pos_iff.2 (charset.decodeLine_bytes
        ((lineHead limit bytes).length = limit && (lineHead limit bytes).getLast? ≠ some lineEnd)
        hhead).1
      have hpos := List.length_pos_iff.2 h
      rw [List.length_drop]
      change 0 < (charset.lineOf limit (lineHead limit bytes)).bytes.length at hline
      omega

/-- The first line holds the first bytes. -/
theorem lineOf_append_drop (charset : Charset) (hlimit : 0 < limit) {bytes : List UInt8}
    (h : bytes ≠ []) :
    (charset.lineOf limit (lineHead limit bytes)).bytes ++
      bytes.drop (charset.lineOf limit (lineHead limit bytes)).bytes.length = bytes := by
  have hhead : lineHead limit bytes ≠ [] := fun hnil => h ((lineHead_eq_nil_iff hlimit).1 hnil)
  have hline : (charset.lineOf limit (lineHead limit bytes)).bytes <+: lineHead limit bytes :=
    List.prefix_iff_eq_append.2 (charset.decodeLine_bytes _ hhead).2
  have hbytes : lineHead limit bytes <+: bytes :=
    List.prefix_iff_eq_append.2 (lineHead_append_drop limit bytes)
  exact List.prefix_iff_eq_append.1 (hline.trans hbytes)

/-- **No byte is lost or read twice.** -/
theorem flatten_bytes_linesOf (charset : Charset) (hlimit : 0 < limit) (bytes : List UInt8) :
    ((charset.linesOf limit bytes).map Line.bytes).flatten = bytes := by
  induction bytes using charset.linesOf_induction hlimit with
  | nil => rw [linesOf_nil, List.map_nil, List.flatten_nil]
  | cons bytes h ih =>
    rw [linesOf_eq_cons _ hlimit h, List.map_cons, List.flatten_cons, ih,
      charset.lineOf_append_drop hlimit h]

/-- Every line holds some bytes, decoded apart from those of the others. -/
theorem text_of_mem_linesOf_utf8 (hlimit : 0 < limit) (bytes : List UInt8) :
    ∀ line ∈ utf8.linesOf limit bytes,
      line.bytes ≠ [] ∧ line.text = Decoder.utf8.lossy line.bytes := by
  induction bytes using utf8.linesOf_induction hlimit with
  | nil =>
    rw [linesOf_nil]
    exact fun line hline => absurd hline List.not_mem_nil
  | cons bytes h ih =>
    have hhead : lineHead limit bytes ≠ [] := fun hnil => h ((lineHead_eq_nil_iff hlimit).1 hnil)
    rw [linesOf_eq_cons _ hlimit h]
    intro line hline
    rcases List.mem_cons.1 hline with rfl | hline
    · exact ⟨(utf8.decodeLine_bytes _ hhead).1, text_lineOf_utf8 hhead⟩
    · exact ih line hline

/-- A line that a character straddles was cut by the limit, and what stands in it before the
character is no text. -/
theorem isChain_linesOf_utf8 (hlimit : 4 ≤ limit) (bytes : List UInt8) :
    (utf8.linesOf limit bytes).IsChain fun line next => Utf8.Straddles line.bytes next.bytes →
      line.degraded = true ∧ line.bytes.length = limit ∧
        ∃ before start, line.bytes = before ++ start ∧ Utf8.Partial start ∧
          ¬ Utf8.IsText before := by
  have hpos : 0 < limit := by omega
  induction bytes using utf8.linesOf_induction hpos with
  | nil =>
    rw [linesOf_nil]
    exact .nil
  | cons bytes h ih =>
    have hhead : lineHead limit bytes ≠ [] := fun hnil => h ((lineHead_eq_nil_iff hpos).1 hnil)
    rw [linesOf_eq_cons _ hpos h, List.isChain_cons]
    refine ⟨fun next hnext hstraddles => ?_, ih⟩
    obtain ⟨b, -, haccepts⟩ := Utf8.straddles_iff.1 hstraddles
    have hinside {xs : List UInt8} (hxs : Utf8.stateAfter xs = .start)
        (hline : (utf8.lineOf limit (lineHead limit bytes)).bytes = xs) : False := by
      rwa [hline, hxs] at haccepts
    rcases decodeLine_utf8_cases ((lineHead limit bytes).length = limit &&
        (lineHead limit bytes).getLast? ≠ some lineEnd) hhead with
      ⟨text, more, -, -, hline⟩ | ⟨hline, -, hrefused⟩
    · exact (hinside (Utf8.stateAfter_of_isText ⟨text, rfl⟩) (congrArg Line.bytes hline)).elim
    · have hbytes : (utf8.lineOf limit (lineHead limit bytes)).bytes = lineHead limit bytes :=
        congrArg Line.bytes hline
      have hlast : (lineHead limit bytes).getLast? ≠ some lineEnd := fun hlast =>
        hinside (Utf8.stateAfter_of_lineEnd hlast) hbytes
      -- there is a next line, so the limit ended this one
      have hlen : (lineHead limit bytes).length = limit := by
        by_contra hlen
        have hall : lineHead limit bytes = bytes := lineHead_eq_self (not_or.2 ⟨hlen, hlast⟩)
        rw [hbytes, hall, List.drop_length, linesOf_nil] at hnext
        cases hnext
      refine ⟨congrArg Line.degraded hline, by rw [hbytes, hlen], ?_⟩
      obtain ⟨c, start, b, later, hchar, hstart, ⟨before, hbefore⟩, -⟩ := hstraddles
      have hpartial : Utf8.code.Partial start := ⟨c, b :: later, hchar, hstart, by simp⟩
      refine ⟨before, start, hbefore.symm, hpartial, ?_⟩
      rintro ⟨text, rfl⟩
      rw [hbytes] at hbefore
      have hle := hpartial.length_le
      by_cases htext : text = []
      · rw [htext, Utf8.encode_nil, List.nil_append] at hbefore
        rw [hbefore] at hle
        omega
      · have hlt := hrefused (by simp [hlen, hlast]) text start htext hbefore.symm
        omega

end Charset

/-! ### A whole body -/

namespace Reader

/-- **Which bodies are read as they would be at once.** However the bytes of a body arrive, they are
read to their end. The texts of the lines are together what the body is in the degraded way, decoded at
once, exactly when no character straddles two lines that follow each other. A line that one
straddles was cut by the limit and degraded, and what stands in it before that character is no text. -/
theorem run_start_eq_lossy_iff {stream : Stream} (hstream : stream.Unbroken) {limit : Nat}
    (hlimit : 4 ≤ limit) :
    (start stream .utf8 limit).run.failure = none ∧
      (((start stream .utf8 limit).run.lines.map Line.text).flatten =
          Decoder.utf8.lossy stream.bytes ↔
        ∀ first line next later,
          (start stream .utf8 limit).run.lines = first ++ line :: next :: later →
          ¬ Utf8.Straddles line.bytes next.bytes) ∧
      ∀ first line next later,
        (start stream .utf8 limit).run.lines = first ++ line :: next :: later →
        Utf8.Straddles line.bytes next.bytes →
          line.degraded = true ∧ line.bytes.length = limit ∧
            ∃ before start, line.bytes = before ++ start ∧ Utf8.Partial start ∧
              ¬ Utf8.IsText before := by
  have hpos : 0 < limit := by omega
  have hmax : max limit 1 = limit := by omega
  rw [run_of_steady (steady_start hstream .utf8 limit), lines_start, hmax]
  have htext := Charset.text_of_mem_linesOf_utf8 hpos stream.bytes
  have hne : [] ∉ (Charset.utf8.linesOf limit stream.bytes).map Line.bytes := by
    intro hmem
    obtain ⟨line, hline, hnil⟩ := List.mem_map.1 hmem
    exact (htext line hline).1 hnil
  have hlossy : (Charset.utf8.linesOf limit stream.bytes).map Line.text =
      ((Charset.utf8.linesOf limit stream.bytes).map Line.bytes).map Decoder.utf8.lossy := by
    rw [List.map_map]
    exact List.map_congr_left fun line hline => (htext line hline).2
  have hiff := Utf8.flatten_map_lossy_iff hne
  rw [Charset.flatten_bytes_linesOf _ hpos, ← hlossy, List.isChain_map,
    List.isChain_iff_forall_rel_of_append_cons_cons] at hiff
  have hchain := List.isChain_iff_forall_rel_of_append_cons_cons.1
    (Charset.isChain_linesOf_utf8 hlimit stream.bytes)
  refine ⟨rfl, ?_, ?_⟩
  · rw [hiff]
    exact ⟨fun h first line next later hlines => h hlines,
      fun h line next first later hlines => h first line next later hlines⟩
  · exact fun first line next later hlines => hchain hlines

/-- An invalid byte behind a character that the limit cuts: the character is held back, and so is the
invalid byte where it is cut off. -/
theorem run_start_of_held_character :
    (Stream.Unbroken [.segment [0x61, 0x62, 0x63, 0xC3], .segment [0xA9, 0xFF, 0x64]] ∧ 4 ≤ 4) ∧
      ((start [.segment [0x61, 0x62, 0x63, 0xC3], .segment [0xA9, 0xFF, 0x64]]
          .utf8 4).run.lines.map Line.text).flatten = ['a', 'b', 'c', 'é', '\uFFFD', 'd'] ∧
      ∀ first line next later,
        (start [.segment [0x61, 0x62, 0x63, 0xC3], .segment [0xA9, 0xFF, 0x64]]
          .utf8 4).run.lines = first ++ line :: next :: later →
        ¬ Utf8.Straddles line.bytes next.bytes := by
  have hstream : Stream.Unbroken [.segment [0x61, 0x62, 0x63, 0xC3], .segment [0xA9, 0xFF, 0x64]] :=
    trivial
  have htext : ((start [.segment [0x61, 0x62, 0x63, 0xC3], .segment [0xA9, 0xFF, 0x64]]
      .utf8 4).run.lines.map Line.text).flatten = ['a', 'b', 'c', 'é', '\uFFFD', 'd'] := by cbv
  have hlossy : Decoder.utf8.lossy
      (Stream.bytes [.segment [0x61, 0x62, 0x63, 0xC3], .segment [0xA9, 0xFF, 0x64]]) =
        ['a', 'b', 'c', 'é', '\uFFFD', 'd'] := by cbv
  have hlimit : 4 ≤ 4 := by decide
  have hiff := (run_start_eq_lossy_iff hstream hlimit).2.1
  exact ⟨⟨hstream, hlimit⟩, htext, hiff.1 (htext.trans hlossy.symm)⟩

/-- An invalid byte before a character that the limit cuts: the two halves of the character are read
apart. -/
theorem run_start_of_lost_character :
    ¬ Utf8.IsText [0xFF, 0x61, 0x62, 0xC3, 0xA9] ∧
      ((start [.segment [0xFF, 0x61, 0x62, 0xC3, 0xA9]] .utf8 4).run.lines.map
        Line.text).flatten = ['\uFFFD', 'a', 'b', '\uFFFD', '\uFFFD'] ∧
      Decoder.utf8.lossy [0xFF, 0x61, 0x62, 0xC3, 0xA9] = ['\uFFFD', 'a', 'b', 'é'] ∧
      ((start [.segment [0xFF, 0x61, 0x62, 0xC3, 0xA9]] .utf8 4).run.lines.map
        Line.text).flatten ≠ Decoder.utf8.lossy [0xFF, 0x61, 0x62, 0xC3, 0xA9] := by
  have htext : ((start [.segment [0xFF, 0x61, 0x62, 0xC3, 0xA9]] .utf8 4).run.lines.map
      Line.text).flatten = ['\uFFFD', 'a', 'b', '\uFFFD', '\uFFFD'] := by cbv
  have hlossy : Decoder.utf8.lossy [0xFF, 0x61, 0x62, 0xC3, 0xA9] = ['\uFFFD', 'a', 'b', 'é'] := by
    cbv
  refine ⟨?_, htext, hlossy, ?_⟩
  · rw [← Utf8.strict?_eq_none_iff]
    cbv
  · rw [htext, hlossy]
    decide

end Reader

end BodyText
