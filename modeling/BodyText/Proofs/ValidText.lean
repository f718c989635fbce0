import BodyText.Config
import BodyText.Proofs.Conversion
import BodyText.Proofs.Pieces

/-!
# Bodies that are texts in UTF-8

A limit with room for a character, which takes four bytes at most, degrades no line of a text in
UTF-8 (`Reader.run_start_encode`). Wherever the limit cuts the text, and however its bytes arrive,
every line has some whole characters of it, and the lines together have them all. So a conversion
delivers the items that the pieces of the text hold (`Converter.delivers_encode`).
-/

namespace BodyText

/-! ### Reading all lines -/

namespace Reader

/-- The reading of a body from beginning to end. -/
structure Run where
  /-- The lines. -/
  lines : List Line
  /-- The failure that ended the reading early. -/
  failure : Option ReadError
  deriving DecidableEq, Repr

/-- Reads lines until the input is at its end, for the first time, or a read fails. -/
def run (r : Reader) : Run :=
  match known r.pull with
  | ⟨(.error e, _), _⟩ => ⟨[], some e⟩
  | ⟨(.ok none, _), _⟩ => ⟨[], none⟩
  | ⟨(.ok (some line), r'), _⟩ =>
    let later := r'.run
    { later with lines := line :: later.lines }
termination_by r.remaining
decreasing_by exact remaining_of_pull ‹_›

/-- What a reading comes to, by its next line. -/
theorem run_eq (r : Reader) :
    r.run =
      match r.pull with
      | (.error e, _) => ⟨[], some e⟩
      | (.ok none, _) => ⟨[], none⟩
      | (.ok (some line), r') => { r'.run with lines := line :: r'.run.lines } := by
  rw [run]
  split <;> rename_i hd _ <;> rw [hd]

/-- All lines of an unbroken stream are read. -/
theorem run_of_steady {r : Reader} (h : r.Steady) : r.run = ⟨r.lines, none⟩ := by
  -- by induction on the lines that are still to be read
  generalize hlines : r.lines = lines
  induction lines generalizing r with
  | nil =>
    rcases pull_of_steady h with ⟨-, r', hpull, -⟩ | ⟨line, later, r', hcons, -⟩
    · rw [run_eq, hpull]
    · rw [hlines] at hcons
      cases hcons
  | cons line later ih =>
    rcases pull_of_steady h with ⟨hnil, -⟩ | ⟨line', later', r', hcons, hpull, hsteady, hlater⟩
    · rw [hlines] at hnil
      cases hnil
    · rw [hlines] at hcons
      obtain ⟨rfl, rfl⟩ := List.cons.inj hcons
      have hrest : r'.run = ⟨later, none⟩ := ih hsteady hlater
      rw [run_eq, hpull]
      simp only [hrest]

end Reader

/-! ### The pieces of a text -/

theorem ne_nil_of_mem_pieces {limit : Nat} (hlimit : 4 ≤ limit) (text : List Char) :
    ∀ piece ∈ pieces limit text, piece ≠ [] := by
  induction text using pieces_induction hlimit with
  | nil =>
    rw [pieces_nil]
    exact fun piece hpiece => absurd hpiece List.not_mem_nil
  | cons text h ih =>
    rw [pieces_eq_cons hlimit h]
    intro piece hpiece
    rcases List.mem_cons.1 hpiece with rfl | hpiece
    · exact textHead_ne_nil hlimit h
    · exact ih piece hpiece

theorem text_pieces {limit : Nat} (hlimit : 4 ≤ limit) (text : List Char) :
    Supply.text ⟨[], pieces limit text⟩ = text := flatten_pieces hlimit text

theorem lined_pieces {limit : Nat} (hlimit : 4 ≤ limit) (text : List Char) :
    Supply.Lined false ⟨[], pieces limit text⟩ :=
  ⟨fun xs ys h => by simp at h, lineText_pieces hlimit text⟩

/-! ### Conversions of a text -/

/-- The writer of a conversion in UTF-8 before its start. -/
def Config.writer (config : Config) : Writer :=
  { rule := config.horizontalRule, latin1 := false }

section

variable {stream : Stream} {text : List Char} {config : Config}

/-- The lines of a text in UTF-8, where a reader starts. -/
theorem Reader.lines_start_encode (hbytes : stream.bytes = Utf8.encode text) {limit : Nat}
    (hlimit : 4 ≤ limit) :
    (Reader.start stream .utf8 limit).lines =
      (pieces limit text).map fun piece => ⟨Utf8.encode piece, piece, false⟩ := by
  have hmax : max limit 1 = limit := by omega
  rw [lines_start, hmax, hbytes, Charset.linesOf_encode hlimit]

/-- **What the conversion of a text delivers**: it does not fail, and the items that the pieces of
the text hold are written, no line of them degraded. -/
theorem Converter.delivers_encode (hstream : stream.Unbroken)
    (hbytes : stream.bytes = Utf8.encode text) (hlimit : 4 ≤ config.lineLimit) :
    (start stream .utf8 config).run.failure = none ∧
      Writer.Delivers False config.writer.renew
        (Supply.items ⟨[], pieces config.lineLimit text⟩)
        ((start stream .utf8 config).run.chunks.map Prod.fst)
        (start stream .utf8 config).run.final.writer := by
  have hlines := Reader.lines_start_encode hbytes hlimit
  have hstart : (start stream .utf8 config).Steady False := by
    refine ⟨Reader.steady_start hstream _ _, ?_⟩
    intro line hline hdegraded
    rw [start, hlines] at hline
    obtain ⟨piece, -, rfl⟩ := List.mem_map.1 hline
    cases hdegraded
  have hsupply : (start stream .utf8 config).supply = ⟨[], pieces config.lineLimit text⟩ := by
    rw [supply, start, hlines, List.map_map]
    exact congrArg (Supply.mk []) (List.map_id _)
  have hdelivers := delivers_run hstart
  rwa [hsupply] at hdelivers

/-- The plain text of a text is what the items that its pieces hold are written as. -/
theorem plainText_encode (hstream : stream.Unbroken) (hbytes : stream.bytes = Utf8.encode text)
    (hlimit : 4 ≤ config.lineLimit) :
    plainText stream .utf8 config =
      .ok (Passage.joined
        (config.writer.compose (Supply.items ⟨[], pieces config.lineLimit text⟩))) := by
  obtain ⟨hfailure, hdelivers⟩ := Converter.delivers_encode hstream hbytes hlimit
  have hpassages := hdelivers.passages_eq (Writer.quiet_renew _)
  rw [plainText, hfailure, Converter.Run.text]
  change Passage.ofChunks _ = config.writer.compose _ at hpassages
  rw [← hpassages, Passage.joined_ofChunks, List.map_map]
  rfl

end

/-! ### No line is degraded -/

/-- Nothing that a body holds tells of a degraded line. -/
theorem Item.diagnostic?_ne (latin1 : Bool) (item : Item) (line : Nat) :
    item.diagnostic? latin1 ≠ some (.softConversion line) := by
  intro h
  cases item with
  | char c => cases h
  | blank c => cases h
  | reference token =>
    rw [diagnostic?] at h
    split at h <;> cases h
  | skipped => cases h
  | tag text =>
    rw [diagnostic?] at h
    split at h <;> cases h
  | unclosed text => cases h

/-- What is kept was kept before or is new. -/
theorem Writer.mem_of_mem_foldl_keep {kept ds : List Diagnostic} {d : Diagnostic}
    (h : d ∈ ds.foldl keep kept) : d ∈ kept ∨ d ∈ ds := by
  induction ds generalizing kept with
  | nil => exact .inl h
  | cons first ds ih =>
    rcases ih h with hkept | hds
    · rw [keep] at hkept
      split at hkept
      · rcases List.mem_append.1 hkept with hkept | hfirst
        · exact .inl hkept
        · exact .inr (List.mem_singleton.1 hfirst ▸ List.mem_cons_self)
      · exact .inl hkept
    · exact .inr (List.mem_cons_of_mem first hds)

/-- A conversion that degrades no line tells of none. -/
theorem Writer.Delivers.not_mem_diagnostics {w v : Writer} {items : List Item} {ks : List Chunk}
    (h : Delivers False w items ks v) (hw : w.diagnostics = []) (line : Nat) :
    .softConversion line ∉ v.diagnostics := by
  rw [h.diagnostics_eq not_false, kept, hw]
  intro hmem
  rcases mem_of_mem_foldl_keep hmem with hkept | hitems
  · exact List.not_mem_nil hkept
  · obtain ⟨item, -, hitem⟩ := List.mem_filterMap.1 hitems
    exact item.diagnostic?_ne w.latin1 line hitem

/-- **No text in UTF-8 is degraded by the limit.** However its bytes arrive, and wherever a limit
with room for a character cuts them, the lines are read without a failure to the end of the
input; each was decoded faithfully and has some text, together they have all of it, and the
conversion tells of no degraded line. -/
theorem Reader.run_start_encode {stream : Stream} {text : List Char} (hstream : stream.Unbroken)
    (hbytes : stream.bytes = Utf8.encode text) (config : Config) (hlimit : 4 ≤ config.lineLimit) :
    (Reader.start stream .utf8 config.lineLimit).run.failure = none ∧
      (∀ line ∈ (Reader.start stream .utf8 config.lineLimit).run.lines,
        line.degraded = false ∧ line.text ≠ []) ∧
      ((Reader.start stream .utf8 config.lineLimit).run.lines.map Line.text).flatten = text ∧
      ∀ line, .softConversion line ∉
        (Converter.start stream .utf8 config).run.final.writer.diagnostics := by
  have hrun := run_of_steady (steady_start hstream .utf8 config.lineLimit)
  rw [lines_start_encode hbytes hlimit] at hrun
  rw [hrun]
  refine ⟨rfl, ?_, ?_, ?_⟩
  · intro line hline
    obtain ⟨piece, hpiece, rfl⟩ := List.mem_map.1 hline
    exact ⟨rfl, ne_nil_of_mem_pieces hlimit text piece hpiece⟩
  · rw [List.map_map]
    exact (congrArg List.flatten (List.map_id _)).trans (flatten_pieces hlimit text)
  · exact (Converter.delivers_encode hstream hbytes hlimit).2.not_mem_diagnostics rfl

/-- Characters of two and of four bytes: the segments cut both, and the limit cuts the last one. -/
theorem Reader.run_start_of_cut :
    (Stream.Unbroken [.segment [0x61, 0xC3], .interrupted, .segment [0xA9, 0xF0, 0x9F],
          .segment [0x98, 0x80], .pause] ∧
        Stream.bytes [.segment [0x61, 0xC3], .interrupted, .segment [0xA9, 0xF0, 0x9F],
          .segment [0x98, 0x80], .pause] = Utf8.encode ['a', 'é', '😀'] ∧ 4 ≤ 4) ∧
      (Reader.start [.segment [0x61, 0xC3], .interrupted, .segment [0xA9, 0xF0, 0x9F],
          .segment [0x98, 0x80], .pause] .utf8 4).run.failure = none ∧
      ((Reader.start [.segment [0x61, 0xC3], .interrupted, .segment [0xA9, 0xF0, 0x9F],
          .segment [0x98, 0x80], .pause] .utf8 4).run.lines.map Line.text).flatten =
        ['a', 'é', '😀'] := by
  have hstream : Stream.Unbroken [.segment [0x61, 0xC3], .interrupted, .segment [0xA9, 0xF0, 0x9F],
      .segment [0x98, 0x80], .pause] := ⟨rfl, trivial⟩
  have hbytes : Stream.bytes [.segment [0x61, 0xC3], .interrupted, .segment [0xA9, 0xF0, 0x9F],
      .segment [0x98, 0x80], .pause] = Utf8.encode ['a', 'é', '😀'] := by decide
  have hrun := run_start_encode hstream hbytes { lineLimit := 4 } (by decide)
  exact ⟨⟨hstream, hbytes, by decide⟩, hrun.1, hrun.2.2.1⟩

end BodyText
