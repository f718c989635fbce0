import BodyText.Proofs.Conversion
import BodyText.Proofs.Pieces

/-!
# One pass over the whole text

What a conversion comes to when the limit cuts no line: the text of the whole body, decoded in the
degraded way where that must be, is taken apart in one pass (`itemsOf`), and its items are written
one after the other (`oneShot`). The conversion reads line by line, stops for each chunk and goes
on again; none of that can be seen in the characters of its text, nor in the links that are open
for them (`Converter.characters_run_eq_oneShot`).
-/

namespace BodyText

/-- The characters that a text becomes, each with the link that is open for it, when the text is
there as a whole and is written in one go. -/
def oneShot (rule : String) (latin1 : Bool) (text : List Char) : List (Char × Option String) :=
  (Writer.compose { rule := rule, latin1 := latin1 } (itemsOf false text)).flatMap
    Passage.characters

/-! ### Conversions from their start -/

namespace Charset

/-- The parts in which a reader gives a body to the conversion. -/
def parts (charset : Charset) (limit : Nat) (bytes : List UInt8) : List (List Char) :=
  (charset.linesOf limit bytes).map Line.text

end Charset

/-- Behind the text `before`, no mark is cut where one part ends and the next begins. -/
def KeepsMarks (before : List Char) (parts : List (List Char)) : Prop :=
  ∀ first later xs, parts = first ++ later → first.flatten = before ++ xs →
    ∀ mark ∈ marks, ¬ Severs mark xs later.flatten

section

variable {before : List Char} {parts : List (List Char)} {s : Supply}

/-- What is at hand of a supply ends where a part does. -/
theorem Supply.Leaves.exists_taken (h : Supply.Leaves ⟨[], parts⟩ s)
    (htext : parts.flatten = before ++ s.text) :
    ∃ taken, parts = taken ++ s.later ∧ taken.flatten = before ++ s.atHand := by
  obtain ⟨taken, hparts, -⟩ := h
  have hparts : parts = taken ++ s.later := hparts
  refine ⟨taken, hparts, ?_⟩
  rw [hparts, List.flatten_append, Supply.text, ← List.append_assoc] at htext
  exact List.append_cancel_right htext

/-- No mark is cut in what is left of a text that keeps its marks from there on. -/
theorem KeepsMarks.intact (h : KeepsMarks before parts) (hleaves : Supply.Leaves ⟨[], parts⟩ s)
    (htext : parts.flatten = before ++ s.text) : s.Intact := by
  obtain ⟨taken, hparts, htaken⟩ := hleaves.exists_taken htext
  intro first later hcut mark hmark hsevers
  cases first with
  | nil => exact not_severs_nil mark _ hsevers
  | cons part first =>
    obtain ⟨rfl, hlater⟩ := List.cons.inj hcut
    refine h (taken ++ first) later (s.atHand ++ first.flatten) ?_ ?_ mark hmark hsevers
    · rw [hparts, List.append_assoc]
      exact congrArg (taken ++ ·) hlater
    · rw [List.flatten_append, htaken, List.append_assoc]

theorem KeepsMarks.append (h : KeepsMarks before parts)
    (more : List Char) : KeepsMarks (before ++ more) parts := by
  intro first later xs hparts hfirst mark hmark hsevers
  rw [List.append_assoc] at hfirst
  exact h first later (more ++ xs) hparts hfirst mark hmark
    (hsevers.of_suffix (List.suffix_append more xs))

end

/-- A text without marks has none to cut. -/
theorem keepsMarks_of_unmarked {before rest : List Char} {parts : List (List Char)}
    (htext : parts.flatten = before ++ rest) (hcr : '\r' ∉ rest)
    (hblocks : ∀ b : Block, ¬ b.opening <:+: lower rest) : KeepsMarks before parts := by
  rintro first later xs rfl hfirst mark hmark hsevers
  rw [List.flatten_append, hfirst, List.append_assoc] at htext
  have hfound := hsevers.infix
  rw [List.append_cancel_left htext] at hfound
  rcases List.mem_cons.1 hmark with rfl | hmark
  · have hmem : '\r' ∈ lower rest := hfound.subset List.mem_cons_self
    obtain ⟨c, hc, hlower⟩ := List.mem_map.1 hmem
    exact hcr (eq_of_toLower rfl hlower ▸ hc)
  · obtain ⟨b, -, rfl⟩ := List.mem_map.1 hmark
    exact hblocks b hfound

namespace Converter

/-- **What a conversion delivers from its start**, when its lines keep the marks whole: the items of
their text. -/
theorem delivers_start {p : Prop} {stream : Stream} (hsteady : stream.Steady)
    (charset : Charset) (config : Config)
    (hlines : ∀ line ∈ charset.linesOf (max config.lineLimit 1) stream.bytes,
      LineText line.text ∧ (line.degraded = true → p))
    (hmarks : KeepsMarks [] (charset.parts (max config.lineLimit 1) stream.bytes)) :
    (start stream charset config).run.failure = none ∧
      Writer.Delivers p { rule := config.horizontalRule, latin1 := charset.isLatin1 }
        (itemsOf false (charset.parts (max config.lineLimit 1) stream.bytes).flatten)
        ((start stream charset config).run.chunks.map Prod.fst)
        (start stream charset config).run.final.writer := by
  have hstart : (start stream charset config).Steady p :=
    ⟨Reader.steady_start hsteady.unbroken charset config.lineLimit, fun line hline => (hlines line hline).2⟩
  obtain ⟨hfailure, hdelivers⟩ := delivers_run hstart
  refine ⟨hfailure, ?_⟩
  have hlined : (start stream charset config).supply.Lined false := by
    refine ⟨fun xs ys h => by simp [supply, start] at h, ?_⟩
    intro part hpart
    obtain ⟨line, hline, rfl⟩ := List.mem_map.1 hpart
    exact (hlines line hline).1
  have hintact : (start stream charset config).supply.Intact :=
    hmarks.intact (.of_suffix List.suffix_rfl) rfl
  rwa [Supply.items_eq_itemsOf hlined hintact] at hdelivers

end Converter

/-! ### Lines that the limit does not cut -/

/-- No mark stands across a line end. -/
theorem not_severs_of_newline {mark xs ys : List Char} (hmark : mark ∈ marks)
    (hxs : xs.getLast? = some '\n') : ¬ Severs mark xs ys := by
  rintro ⟨begin, rest, rfl, hbegin, hrest, ⟨before, hsuffix⟩, -⟩
  have hlast : (lower xs).getLast? = some '\n' := by
    rw [lower, List.getLast?_map, hxs]
    rfl
  rw [← hsuffix, List.getLast?_append, List.getLast?_eq_some_getLast hbegin, Option.some_or,
    ← List.getLast?_eq_some_getLast hbegin] at hlast
  have hno : ∀ mark ∈ marks, '\n' ∉ mark.dropLast := by decide
  apply hno _ hmark
  rw [List.dropLast_append_of_ne_nil hrest]
  exact List.mem_append_left _ (List.mem_of_getLast? hlast)

theorem AreLines.keepsMarks {lines : List (List Char)} {text : List Char}
    (h : AreLines lines text) : KeepsMarks [] lines := by
  rintro first later xs hlines rfl mark hmark hsevers
  rcases h.getLast?_of_append hlines with hnil | hlast | rfl
  · exact not_severs_nil mark _ (hnil ▸ hsevers)
  · exact not_severs_of_newline hmark hlast hsevers
  · obtain ⟨begin, rest, -, -, hrest, -, hprefix⟩ := hsevers
    exact hrest (List.prefix_nil.1 hprefix)

namespace Converter

/-- **A conversion comes to what one pass over the whole text comes to.** For every body in UTF-8,
whatever its bytes, and a limit that is greater than the length of each of its lines, the
conversion ends without a failure, and the characters of its chunks, with their links, are those
of the text decoded as a whole. -/
theorem characters_run_eq_oneShot {stream : Stream} (hsteady : stream.Steady) (config : Config)
    (hlines : ∀ line ∈ stream.bytes.splitOn lineEnd, line.length < max config.lineLimit 1) :
    (start stream .utf8 config).run.failure = none ∧
      ((start stream .utf8 config).run.chunks.map Prod.fst).flatMap Chunk.characters =
        oneShot config.horizontalRule false (Decoder.utf8.lossy stream.bytes) := by
  have hare := Charset.areLines_linesOf hlines
  obtain ⟨hfailure, hdelivers⟩ := delivers_start (p := True) hsteady .utf8 config
    (fun line hline => ⟨hare.lineText _ (List.mem_map_of_mem hline), fun _ => trivial⟩)
    hare.keepsMarks
  refine ⟨hfailure, ?_⟩
  rw [hdelivers.characters_eq, Charset.parts, hare.flatten_eq]
  rfl

/-- A tag that runs over a line end opens a link, and the last byte is no character. -/
theorem characters_run_of_link :
    (Stream.Steady [.segment [0x61, 0x3C, 0x61], .interrupted,
        .segment [0x0A, 0x68, 0x72, 0x65, 0x66, 0x3D, 0x78, 0x3E, 0x62, 0xFF]] ∧
      ∀ line ∈ (Stream.bytes [.segment [0x61, 0x3C, 0x61], .interrupted,
          .segment [0x0A, 0x68, 0x72, 0x65, 0x66, 0x3D, 0x78, 0x3E, 0x62, 0xFF]]).splitOn lineEnd,
        line.length < max 10 1) ∧
      ((start [.segment [0x61, 0x3C, 0x61], .interrupted,
          .segment [0x0A, 0x68, 0x72, 0x65, 0x66, 0x3D, 0x78, 0x3E, 0x62, 0xFF]] .utf8
          { lineLimit := 10 }).run.chunks.map Prod.fst).flatMap Chunk.characters =
        [('a', none), ('b', some "x"), ('\uFFFD', some "x")] := by
  have hsteady : Stream.Steady [.segment [0x61, 0x3C, 0x61], .interrupted,
      .segment [0x0A, 0x68, 0x72, 0x65, 0x66, 0x3D, 0x78, 0x3E, 0x62, 0xFF]] := by
    unfold Stream.Steady
    decide
  have hlines : ∀ line ∈ (Stream.bytes [.segment [0x61, 0x3C, 0x61], .interrupted,
      .segment [0x0A, 0x68, 0x72, 0x65, 0x66, 0x3D, 0x78, 0x3E, 0x62, 0xFF]]).splitOn lineEnd,
      line.length < max 10 1 := by decide
  have hcharacters := (characters_run_eq_oneShot hsteady { lineLimit := 10 } hlines).2
  exact ⟨⟨hsteady, hlines⟩, hcharacters.trans (by cbv)⟩

end Converter

end BodyText
