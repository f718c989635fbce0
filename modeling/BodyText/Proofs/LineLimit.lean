import BodyText.Proofs.OneShot

/-!
# The line limit does not matter

A limit may cut a line anywhere: inside a tag, a reference or a character. Where no mark can be cut,
because the text has no CR and opens no block, nobody can tell where: the passages of the text, the
text itself and the diagnostics are the same under any two limits
(`Converter.run_eq_of_lineLimit`). The limit must have room for a character, which is four bytes in
UTF-8 and one in windows-1252.
-/

namespace BodyText

/-- A body that is a text of its charset, so that no limit from the given one on degrades a line. -/
inductive Seamless : Charset → Nat → List UInt8 → List Char → Prop
  /-- The bytes of a text in UTF-8. -/
  | utf8 (text : List Char) : Seamless .utf8 4 (Utf8.encode text) text
  /-- Any bytes in windows-1252. -/
  | windows1252 (bytes : List UInt8) :
      Seamless Encoding.windows1252.charset 1 bytes (Encoding.windows1252.charset.decodeLossy bytes)

/-- The lines of such a body are parts of the lines of its text, and none is degraded. -/
theorem Seamless.lines {charset : Charset} {least limit : Nat} {bytes : List UInt8}
    {text : List Char} (h : Seamless charset least bytes text) (hlimit : least ≤ limit) :
    (∀ line ∈ charset.linesOf limit bytes, LineText line.text ∧ line.degraded = false) ∧
      (charset.parts limit bytes).flatten = text := by
  cases h with
  | utf8 =>
    have hlines := Charset.linesOf_encode hlimit text
    constructor
    · intro line hline
      rw [hlines] at hline
      obtain ⟨piece, hpiece, rfl⟩ := List.mem_map.1 hline
      exact ⟨lineText_pieces hlimit text piece hpiece, rfl⟩
    · have hparts : Charset.utf8.parts limit (Utf8.encode text) = pieces limit text := by
        rw [Charset.parts, hlines, List.map_map]
        exact List.map_id _
      rw [hparts, flatten_pieces hlimit]
  | windows1252 =>
    obtain ⟨hlines, hflat⟩ :=
      Charset.linesOf_ofCodePage "windows-1252" true total_windows1252 hlimit bytes
    exact ⟨fun line hline => ⟨(hlines line hline).2, (hlines line hline).1⟩, hflat⟩

namespace Converter

/-- What a conversion of such a body comes to, in terms of its text alone. -/
theorem run_of_seamless {charset : Charset} {least : Nat} {text : List Char} {stream : Stream}
    (hbody : Seamless charset least stream.bytes text) (hsteady : stream.Steady)
    (hcr : '\r' ∉ text) (hblocks : ∀ b : Block, ¬ b.opening <:+: lower text) {config : Config}
    (hlimit : least ≤ config.lineLimit) {w : Writer}
    (hw : w = { rule := config.horizontalRule, latin1 := charset.isLatin1 }) :
    Passage.ofChunks ((start stream charset config).run.chunks.map Prod.fst) =
        w.compose (itemsOf false text) ∧
      plainText stream charset config = .ok (Passage.joined (w.compose (itemsOf false text))) ∧
      (start stream charset config).run.final.writer.diagnostics =
        w.kept (itemsOf false text) := by
  obtain ⟨hlines, htext⟩ := hbody.lines (Nat.le_trans hlimit (Nat.le_max_left _ 1))
  have hmarks : KeepsMarks [] (charset.parts (max config.lineLimit 1) stream.bytes) :=
    keepsMarks_of_unmarked htext hcr hblocks
  obtain ⟨hfailure, hdelivers⟩ := delivers_start (p := False) hsteady charset config
    (fun line hline => ⟨(hlines line hline).1, fun h => by simp [(hlines line hline).2] at h⟩)
    hmarks
  rw [htext, ← hw] at hdelivers
  have hquiet : w.Quiet := by
    rw [hw]
    exact ⟨nofun, nofun⟩
  have hpassages := hdelivers.passages_eq hquiet
  refine ⟨hpassages, ?_, hdelivers.diagnostics_eq not_false⟩
  rw [plainText, hfailure, Run.text, ← hpassages, Passage.joined_ofChunks, List.map_map]
  rfl

/-- **The line limit does not matter.** A body in UTF-8, or in windows-1252, whose text has no CR
and opens no block comes to the same passages, the same text and the same diagnostics under any two
limits that have room for a character. -/
theorem run_eq_of_lineLimit {charset : Charset} {least : Nat} {text : List Char}
    {stream : Stream} (hbody : Seamless charset least stream.bytes text)
    (hsteady : stream.Steady) (hcr : '\r' ∉ text)
    (hblocks : ∀ b : Block, ¬ b.opening <:+: lower text) (config config' : Config)
    (hrule : config.horizontalRule = config'.horizontalRule) (hlimit : least ≤ config.lineLimit)
    (hlimit' : least ≤ config'.lineLimit) :
    Passage.ofChunks ((start stream charset config).run.chunks.map Prod.fst) =
        Passage.ofChunks ((start stream charset config').run.chunks.map Prod.fst) ∧
      (∃ s, plainText stream charset config = .ok s ∧ plainText stream charset config' = .ok s) ∧
      (start stream charset config).run.final.writer.diagnostics =
        (start stream charset config').run.final.writer.diagnostics := by
  obtain ⟨hpassages, htext, hdiagnostics⟩ :=
    run_of_seamless hbody hsteady hcr hblocks hlimit rfl
  obtain ⟨hpassages', htext', hdiagnostics'⟩ :=
    run_of_seamless hbody hsteady hcr hblocks hlimit' (congrArg (Writer.mk _ _ _ _ · _) hrule)
  exact ⟨hpassages.trans hpassages'.symm, ⟨_, htext, htext'⟩,
    hdiagnostics.trans hdiagnostics'.symm⟩

theorem seamless_segment (text : List Char) :
    Seamless .utf8 4 (Stream.bytes [.segment (Utf8.encode text)]) text := by
  rw [show Stream.bytes [.segment (Utf8.encode text)] = Utf8.encode text from List.append_nil _]
  exact .utf8 text

/-- A text whose tag, reference and last character a limit of four bytes cuts. -/
def cutText : List Char := ['é', '<', 'p', 'r', 'e', '>', '&', 'l', 't', ';', 'é']

/-- A limit of four bytes and the default limit come to the same. -/
theorem run_eq_of_limit_four :
    Seamless .utf8 4 (Stream.bytes [.segment (Utf8.encode cutText)]) cutText ∧
      Passage.ofChunks ((start [.segment (Utf8.encode cutText)] .utf8
          { lineLimit := 4 }).run.chunks.map Prod.fst) =
        Passage.ofChunks ((start [.segment (Utf8.encode cutText)] .utf8
          {}).run.chunks.map Prod.fst) := by
  have hcr : '\r' ∉ cutText := by decide
  have hblocks : ∀ b : Block, ¬ b.opening <:+: lower cutText := by
    intro b
    cases b <;> decide
  have hsame := run_eq_of_lineLimit (seamless_segment cutText) (Stream.steady_segment _) hcr
    hblocks { lineLimit := 4 } {} rfl (by decide) (by decide)
  exact ⟨seamless_segment cutText, hsame.1⟩

end Converter

end BodyText
