import BodyText.Proofs.DegradedLines
import BodyText.Proofs.Turns

/-!
# The lines that diagnostics name

A row of a body is what stands between two line ends. A reader reads a row in one line or, where the
limit cuts it, in several, and it counts lines. So the number that a diagnostic names is that of a line
(`Converter.Tells`), while the number of its row is that of the line ends before it
(`Charset.degradedBehind_linesOf_iff`). The diagnostics name the rows that are no text exactly when
every line before a degraded one ends its row (`Converter.softConversion_mem_iff`).
-/

namespace BodyText

/-! ### Degraded lines -/

/-- A line at whose end its row ends. -/
def Line.endsRow (line : Line) : Bool := line.bytes.getLast? = some lineEnd

/-- Behind some lines stands a degraded one. -/
def DegradedBehind (lines before : List Line) : Prop :=
  ∃ line after, lines = before ++ line :: after ∧ line.degraded = true

namespace DegradedBehind

variable {lines before : List Line} {line : Line}

theorem not_nil : ¬ DegradedBehind [] before := by
  rintro ⟨line, after, hlines, -⟩
  simp at hlines

theorem cons_iff :
    DegradedBehind (line :: lines) before ↔
      before = [] ∧ line.degraded = true ∨
        ∃ later, before = line :: later ∧ DegradedBehind lines later := by
  constructor
  · rintro ⟨found, after, hlines, hdegraded⟩
    rcases List.cons_eq_append_iff.1 hlines with ⟨rfl, hlines⟩ | ⟨later, rfl, rfl⟩
    · obtain ⟨rfl, -⟩ := List.cons.inj hlines
      exact .inl ⟨rfl, hdegraded⟩
    · exact .inr ⟨later, rfl, found, after, rfl, hdegraded⟩
  · rintro (⟨rfl, hdegraded⟩ | ⟨later, rfl, found, after, rfl, hdegraded⟩)
    · exact ⟨line, lines, rfl, hdegraded⟩
    · exact ⟨found, after, rfl, hdegraded⟩

theorem concat_iff :
    DegradedBehind (lines ++ [line]) before ↔
      DegradedBehind lines before ∨ before = lines ∧ line.degraded = true := by
  induction lines generalizing before with
  | nil =>
    rw [List.nil_append, cons_iff, or_comm]
    simp only [not_nil, and_false, exists_false]
  | cons first lines ih =>
    rw [List.cons_append, cons_iff, cons_iff, or_assoc]
    simp only [ih]
    apply or_congr Iff.rfl
    constructor
    · rintro ⟨later, rfl, hlines | ⟨rfl, hdegraded⟩⟩
      · exact .inl ⟨later, rfl, hlines⟩
      · exact .inr ⟨rfl, hdegraded⟩
    · rintro (⟨later, rfl, hlines⟩ | ⟨rfl, hdegraded⟩)
      · exact ⟨later, rfl, .inl hlines⟩
      · exact ⟨lines, rfl, .inr ⟨rfl, hdegraded⟩⟩

theorem length_lt (h : DegradedBehind lines before) : before.length < lines.length := by
  obtain ⟨line, after, rfl, -⟩ := h
  rw [List.length_append, List.length_cons]
  omega

theorem eq_of_length {other : List Line} (h : DegradedBehind lines before)
    (hother : DegradedBehind lines other) (hlen : before.length = other.length) :
    before = other := by
  obtain ⟨line, after, rfl, -⟩ := h
  obtain ⟨line', after', hlines, -⟩ := hother
  exact List.append_inj_left hlines hlen

/-- The numbers of the degraded lines are those of their rows exactly where every line before a
degraded one ends its row. -/
theorem numbers_iff :
    (∀ n, (∃ before, DegradedBehind lines before ∧ n = before.length + 1) ↔
        ∃ before, DegradedBehind lines before ∧ n = before.countP Line.endsRow + 1) ↔
      ∀ before, DegradedBehind lines before → ∀ line ∈ before, line.endsRow = true := by
  constructor
  · intro h before hbefore
    rw [← List.countP_eq_length]
    -- by induction on the lines behind, since a line has a number that its row cannot exceed
    induction hbehind : lines.length - before.length using Nat.strongRecOn generalizing before with
    | ind behind ih =>
      subst hbehind
      obtain ⟨other, hother, hnumber⟩ := (h _).1 ⟨before, hbefore, rfl⟩
      have hcount : other.countP Line.endsRow ≤ other.length := List.countP_le_length
      have hlt := hother.length_lt
      by_cases hlen : before.length = other.length
      · rw [← hbefore.eq_of_length hother hlen] at hnumber
        omega
      · have hall := ih (lines.length - other.length) (by omega) other hother rfl
        omega
  · intro h n
    constructor
    · rintro ⟨before, hbefore, rfl⟩
      exact ⟨before, hbefore, by rw [List.countP_eq_length.2 (h before hbefore)]⟩
    · rintro ⟨before, hbefore, rfl⟩
      exact ⟨before, hbefore, by rw [List.countP_eq_length.2 (h before hbefore)]⟩

end DegradedBehind

/-! ### The rows of a body -/

/-- The row with a number, counted from one, is no text. -/
def Utf8.InvalidRow (bytes : List UInt8) (n : Nat) : Prop :=
  ∃ row, (row, n) ∈ (bytes.splitOn lineEnd).zipIdx 1 ∧ ¬ IsText row

theorem splitOn_append_of_not_mem {xs : List UInt8} (h : lineEnd ∉ xs) (ys : List UInt8) :
    (xs ++ ys).splitOn lineEnd = (ys.splitOn lineEnd).modifyHead (xs ++ ·) := by
  induction xs with
  | nil =>
    obtain ⟨row, rows, hrows⟩ := List.exists_cons_of_ne_nil (List.splitOn_ne_nil lineEnd ys)
    simp [hrows]
  | cons b xs ih =>
    rw [List.mem_cons, not_or] at h
    have hb : ¬ (b == lineEnd) = true := by simpa using Ne.symm h.1
    rw [List.cons_append, List.splitOn_cons_eq_if_modifyHead, if_neg hb, ih h.2,
      List.modifyHead_modifyHead]
    rfl

/-- A line end is a text of its own. -/
theorem Utf8.isText_concat_lineEnd {xs : List UInt8} :
    IsText (xs ++ [lineEnd]) ↔ IsText xs := by
  have hstraddles : ¬ Straddles xs [lineEnd] := by
    rw [straddles_iff]
    rintro ⟨b, hb, haccepts⟩
    obtain rfl := Option.some.inj hb
    exact (sound_stateAfter xs).not_accepts_lineEnd haccepts
  have hend : none ∉ Decoder.utf8.pieces [lineEnd] := by decide
  rw [isText_iff, isText_iff, pieces_append_of_not_straddles hstraddles, List.mem_append, not_or]
  exact and_iff_left hend

namespace Charset

variable {limit : Nat}

/-- Bytes whose first line is degraded are no text. -/
theorem not_isText_of_degraded (hlimit : 4 ≤ limit) {bytes : List UInt8} (hne : bytes ≠ [])
    (h : (utf8.lineOf limit (lineHead limit bytes)).degraded = true) : ¬ Utf8.IsText bytes := by
  rintro ⟨text, rfl⟩
  have htext : text ≠ [] := by
    rintro rfl
    exact hne rfl
  rw [lineOf_encode hlimit htext] at h
  cases h

/-- A line end in a line is the last byte of it. -/
theorem eq_nil_of_lineOf (charset : Charset) {bytes before after : List UInt8}
    (hne : lineHead limit bytes ≠ [])
    (h : (charset.lineOf limit (lineHead limit bytes)).bytes = before ++ lineEnd :: after) :
    after = [] := by
  have hall : (charset.lineOf limit (lineHead limit bytes)).bytes ++
      (lineHead limit bytes).drop (charset.lineOf limit (lineHead limit bytes)).bytes.length =
        lineHead limit bytes := (charset.decodeLine_bytes _ hne).2
  rw [h, List.append_assoc, List.cons_append] at hall
  exact (List.append_eq_nil_iff.1 (eq_nil_of_lineHead hall.symm)).1

section

variable {bytes : List UInt8} {line : Line}

/-- A line that ends a row is degraded exactly when the row is no text. -/
theorem splitOn_of_endsRow (hlimit : 4 ≤ limit) (hne : bytes ≠ [])
    (hline : line = utf8.lineOf limit (lineHead limit bytes)) (hends : line.endsRow = true) :
    ∃ row, bytes.splitOn lineEnd = row :: (bytes.drop line.bytes.length).splitOn lineEnd ∧
      (line.degraded = true ↔ ¬ Utf8.IsText row) := by
  have hpos : 0 < limit := by omega
  have hhead : lineHead limit bytes ≠ [] := fun hnil => hne ((lineHead_eq_nil_iff hpos).1 hnil)
  have hlast : line.bytes.getLast? = some lineEnd := by simpa [Line.endsRow] using hends
  obtain ⟨row, hrow⟩ := List.getLast?_eq_some_iff.1 hlast
  have hno : lineEnd ∉ row := by
    intro hmem
    obtain ⟨before, after, rfl⟩ := List.append_of_mem hmem
    rw [hline, List.append_assoc, List.cons_append] at hrow
    have hnil := eq_nil_of_lineOf utf8 hhead hrow
    simp at hnil
  have hall : row ++ lineEnd :: bytes.drop line.bytes.length = bytes := by
    rw [← List.singleton_append, ← List.append_assoc, ← hrow, hline]
    exact utf8.lineOf_append_drop hpos hne
  refine ⟨row, ?_, ?_⟩
  · conv_lhs => rw [← hall]
    exact List.splitOn_append_cons_self_of_not_mem hno _
  · rw [← Utf8.isText_concat_lineEnd, ← hrow, hline]
    constructor
    · intro h
      obtain ⟨hbytes, hnot⟩ := bytes_lineOf_of_degraded hhead h
      rwa [hbytes]
    · intro hnot
      by_contra h
      exact hnot (isText_of_not_degraded hhead (by simpa using h))

/-- Behind a degraded line without a line end, nothing of its row can make the row a text. -/
theorem not_isText_row_of_degraded (hlimit : 4 ≤ limit) (hne : bytes ≠ [])
    (hline : line = utf8.lineOf limit (lineHead limit bytes)) (hdegraded : line.degraded = true)
    (hno : lineEnd ∉ line.bytes) {row : List UInt8} {rows : List (List UInt8)}
    (hrows : (bytes.drop line.bytes.length).splitOn lineEnd = row :: rows) :
    ¬ Utf8.IsText (line.bytes ++ row) := by
  have hpos : 0 < limit := by omega
  have hhead : lineHead limit bytes ≠ [] := fun hnil => hne ((lineHead_eq_nil_iff hpos).1 hnil)
  have hbytes : line.bytes = lineHead limit bytes := by
    rw [hline] at hdegraded ⊢
    exact (bytes_lineOf_of_degraded hhead hdegraded).1
  -- the line is the first one of its row too
  have hfirst : lineHead limit (line.bytes ++ row) = lineHead limit bytes := by
    by_cases hlen : line.bytes.length = limit
    · rw [lineHead_append_of_not_mem (Nat.le_of_eq hlen) hno, hlen, Nat.sub_self, lineHead,
        List.append_nil, hbytes]
    · have hlast : line.bytes.getLast? ≠ some lineEnd := fun hlast =>
        hno (List.mem_of_getLast? hlast)
      have hself : lineHead limit bytes = bytes := by
        rw [hbytes] at hlen hlast
        exact lineHead_eq_self (not_or.2 ⟨hlen, hlast⟩)
      rw [hbytes, hself, List.drop_length, List.splitOn_nil] at hrows
      obtain ⟨rfl, -⟩ := List.cons.inj hrows
      rw [List.append_nil, hbytes, hself, hself]
  apply not_isText_of_degraded hlimit
  · rw [hbytes]
    exact List.append_ne_nil_of_left_ne_nil hhead row
  · rw [hfirst, ← hline, hdegraded]

/-- Where a line does not end its row, the row is no text exactly when the line is degraded or what
the row goes on with is no text. -/
theorem splitOn_of_not_endsRow (hlimit : 4 ≤ limit) (hne : bytes ≠ [])
    (hline : line = utf8.lineOf limit (lineHead limit bytes)) (hends : line.endsRow = false) :
    ∃ row rows, (bytes.drop line.bytes.length).splitOn lineEnd = row :: rows ∧
      bytes.splitOn lineEnd = (line.bytes ++ row) :: rows ∧
      (line.degraded = true ∨ ¬ Utf8.IsText row ↔ ¬ Utf8.IsText (line.bytes ++ row)) := by
  have hpos : 0 < limit := by omega
  have hhead : lineHead limit bytes ≠ [] := fun hnil => hne ((lineHead_eq_nil_iff hpos).1 hnil)
  have hno : lineEnd ∉ line.bytes := by
    intro hmem
    obtain ⟨before, after, hbytes⟩ := List.append_of_mem hmem
    have hnil : after = [] := by
      rw [hline] at hbytes
      exact eq_nil_of_lineOf utf8 hhead hbytes
    rw [Line.endsRow, hbytes, hnil] at hends
    simp at hends
  obtain ⟨row, rows, hrows⟩ := List.exists_cons_of_ne_nil
    (List.splitOn_ne_nil lineEnd (bytes.drop line.bytes.length))
  refine ⟨row, rows, hrows, ?_, ?_⟩
  · have hall : line.bytes ++ bytes.drop line.bytes.length = bytes := by
      rw [hline]
      exact utf8.lineOf_append_drop hpos hne
    conv_lhs => rw [← hall, splitOn_append_of_not_mem hno, hrows]
    rfl
  · cases hdegraded : line.degraded with
    | true =>
      have hnot := not_isText_row_of_degraded hlimit hne hline hdegraded hno hrows
      exact ⟨fun _ => hnot, fun _ => .inl rfl⟩
    | false =>
      have htext : Utf8.IsText line.bytes := by
        rw [hline] at hdegraded ⊢
        exact isText_of_not_degraded hhead hdegraded
      rw [Utf8.isText_append_iff htext]
      exact or_iff_right Bool.false_ne_true

end

/-- **The rows that are no text** are those of which a line is degraded; and as many rows are before
a line as lines before it end their row. -/
theorem degradedBehind_linesOf_iff (hlimit : 4 ≤ limit) (bytes : List UInt8) (n : Nat) :
    (∃ before, DegradedBehind (utf8.linesOf limit bytes) before ∧
        before.countP Line.endsRow = n) ↔
      ∃ row, (bytes.splitOn lineEnd)[n]? = some row ∧ ¬ Utf8.IsText row := by
  have hpos : 0 < limit := by omega
  induction bytes using utf8.linesOf_induction hpos generalizing n with
  | nil =>
    rw [linesOf_nil, List.splitOn_nil]
    constructor
    · rintro ⟨before, hbefore, -⟩
      exact (DegradedBehind.not_nil hbefore).elim
    · rintro ⟨row, hrow, hnot⟩
      obtain rfl := List.mem_singleton.1 (List.mem_of_getElem? hrow)
      exact (hnot ⟨[], rfl⟩).elim
  | cons bytes h ih =>
    rw [linesOf_eq_cons _ hpos h]
    generalize hline : utf8.lineOf limit (lineHead limit bytes) = line at ih ⊢
    have hbehind : (∃ before, DegradedBehind
          (line :: utf8.linesOf limit (bytes.drop line.bytes.length)) before ∧
            before.countP Line.endsRow = n) ↔
        line.degraded = true ∧ n = 0 ∨
          ∃ m, n = m + (if line.endsRow = true then 1 else 0) ∧
            ∃ row, ((bytes.drop line.bytes.length).splitOn lineEnd)[m]? = some row ∧
              ¬ Utf8.IsText row := by
      simp only [DegradedBehind.cons_iff, ← ih]
      constructor
      · rintro ⟨before, ⟨rfl, hdegraded⟩ | ⟨later, rfl, hlater⟩, rfl⟩
        · exact .inl ⟨hdegraded, rfl⟩
        · exact .inr ⟨_, List.countP_cons, later, hlater, rfl⟩
      · rintro (⟨hdegraded, rfl⟩ | ⟨m, rfl, later, hlater, rfl⟩)
        · exact ⟨[], .inl ⟨rfl, hdegraded⟩, rfl⟩
        · exact ⟨line :: later, .inr ⟨later, rfl, hlater⟩, List.countP_cons⟩
    rw [hbehind]
    cases hends : line.endsRow with
    | true =>
      obtain ⟨row, hrows, hiff⟩ := splitOn_of_endsRow hlimit h hline.symm hends
      rw [hrows, hiff]
      cases n with
      | zero => simp
      | succ n => simp
    | false =>
      obtain ⟨row, rows, hrest, hrows, hiff⟩ := splitOn_of_not_endsRow hlimit h hline.symm hends
      rw [hrows, hrest]
      cases n with
      | zero => simp [← hiff]
      | succ n => simp

end Charset

/-! ### What the diagnostics name -/

/-- The diagnostics, unless there are too many of them, name the degraded lines by how many lines
stand before them. -/
def Writer.Names (w : Writer) (lines : List Line) : Prop :=
  w.diagnostics.length < maxDiagnostics →
    ∀ n, .softConversion n ∈ w.diagnostics ↔
      ∃ before, DegradedBehind lines before ∧ n = before.length + 1

/-- A diagnostic is kept where there are not too many of them. -/
theorem Writer.diagnostics_report_of_lt {w : Writer} {d : Diagnostic}
    (h : (w.report d).diagnostics.length < maxDiagnostics) :
    w.diagnostics.length < maxDiagnostics ∧ (w.report d).diagnostics = w.diagnostics ++ [d] := by
  rw [diagnostics_report, keep] at h ⊢
  by_cases hlt : w.diagnostics.length < maxDiagnostics
  · exact ⟨hlt, if_pos hlt⟩
  · rw [if_neg hlt] at h
    exact absurd h hlt

namespace Writer.Names

variable {w w' : Writer} {lines : List Line} {line : Line}

theorem of_diagnostics (h : w.Names lines) (hw : w'.diagnostics = w.diagnostics) :
    w'.Names lines := by
  unfold Names
  rw [hw]
  exact h

/-- A diagnostic that names no line. -/
theorem report (h : w.Names lines) {d : Diagnostic} (hd : ∀ n, d ≠ .softConversion n) :
    (w.report d).Names lines := by
  intro hroom n
  obtain ⟨hlt, hdiagnostics⟩ := diagnostics_report_of_lt hroom
  rw [hdiagnostics, List.mem_append, List.mem_singleton, h hlt n]
  exact or_iff_left (hd n).symm

/-- An item names no line. -/
theorem write (h : w.Names lines) (item : Item) : (w.write item).2.Names lines := by
  have hdiagnostics := (w.diagnostics_write item).1
  cases hitem : item.diagnostic? w.latin1 with
  | none =>
    rw [hitem] at hdiagnostics
    exact h.of_diagnostics hdiagnostics
  | some d =>
    have hne (n : Nat) : d ≠ .softConversion n := by
      rintro rfl
      exact item.diagnostic?_ne w.latin1 n hitem
    rw [hitem] at hdiagnostics
    exact (h.report hne).of_diagnostics (hdiagnostics.trans (diagnostics_report w d).symm)

/-- A degraded line more, which is named. -/
theorem noteDegraded (h : w.Names lines) (hline : line.degraded = true) :
    (w.noteDegraded (lines.length + 1)).Names (lines ++ [line]) := by
  intro hroom n
  obtain ⟨hlt, hdiagnostics⟩ := diagnostics_report_of_lt hroom
  have hbefore := h hlt n
  rw [Writer.noteDegraded, hdiagnostics, List.mem_append, List.mem_singleton]
  simp only [DegradedBehind.concat_iff, hline, and_true]
  constructor
  · rintro (hmem | hnew)
    · obtain ⟨before, hbehind, hn⟩ := hbefore.1 hmem
      exact ⟨before, .inl hbehind, hn⟩
    · exact ⟨lines, .inr rfl, Diagnostic.softConversion.inj hnew⟩
  · rintro ⟨before, hbehind | rfl, rfl⟩
    · exact .inl (hbefore.2 ⟨before, hbehind, rfl⟩)
    · exact .inr rfl

/-- Any other line more. -/
theorem concat (h : w.Names lines) (hline : line.degraded = false) :
    w.Names (lines ++ [line]) := by
  intro hroom n
  simp only [h hroom n, DegradedBehind.concat_iff, hline, Bool.false_eq_true, and_false, or_false]

end Writer.Names

/-- A line that is read is counted. -/
theorem Reader.lineNumber_of_pull {r r' : Reader} {line? : Option Line}
    (h : r.pull = (.ok line?, r')) : r'.lineNumber = r.lineNumber + line?.toList.length := by
  obtain ⟨taken, s, -, hsettle⟩ := settle_of_pull h
  rw [settle] at hsettle
  split at hsettle
  · cases hsettle
    rfl
  · cases hsettle
    rfl

namespace Converter

/-- A converter that has read the first of some lines, and tells of those that were degraded. -/
structure Tells (lines : List Line) (c : Converter) : Prop where
  /-- The reader is between two lines of an unbroken stream. -/
  steady : c.reader.Steady
  /-- What was read. -/
  told : ∃ read, lines = read ++ c.reader.lines ∧ c.reader.lineNumber = read.length ∧
    c.writer.Names read

variable {lines : List Line} {c c' : Converter}

theorem tells_start {stream : Stream} (hstream : stream.Unbroken) (charset : Charset)
    (config : Config) :
    (start stream charset config).Tells (start stream charset config).reader.lines := by
  refine ⟨Reader.steady_start hstream _ _, [], rfl, rfl, ?_⟩
  intro _ n
  constructor
  · exact fun hmem => absurd hmem List.not_mem_nil
  · rintro ⟨before, hbefore, -⟩
    exact (DegradedBehind.not_nil hbefore).elim

theorem Tells.of_reader (h : c.Tells lines) (hreader : c'.reader = c.reader)
    (hwriter : ∀ read, c.writer.Names read → c'.writer.Names read) : c'.Tells lines := by
  obtain ⟨read, hlines, hnumber, hnames⟩ := h.told
  exact ⟨hreader ▸ h.steady, read, hreader ▸ hlines, hreader ▸ hnumber, hwriter read hnames⟩

/-- A line more is told of; without one all lines were read. -/
theorem Tells.refill (h : c.Tells lines) :
    c.refill.2.Tells lines ∧ (c.refill.1 = .ok true ∨
      c.refill.1 = .ok false ∧ c.refill.2.reader.lines = []) := by
  obtain ⟨read, hlines, hnumber, hnames⟩ := h.told
  rcases Reader.pull_of_steady h.steady with
    ⟨hnil, r, hpull, hsteady, hnil'⟩ | ⟨line, later, r, hcons, hpull, hsteady, hlater⟩
  · have hcount := Reader.lineNumber_of_pull hpull
    rw [Converter.refill, hpull]
    refine ⟨⟨hsteady, read, ?_, hcount.trans hnumber, hnames⟩, .inr ⟨rfl, hnil'⟩⟩
    rw [hlines, hnil, hnil']
  · have hcount : r.lineNumber = read.length + 1 :=
      (Reader.lineNumber_of_pull hpull).trans (congrArg (· + 1) hnumber)
    rw [Converter.refill, hpull]
    refine ⟨⟨hsteady, read ++ [line], ?_, ?_, ?_⟩, .inl rfl⟩
    · rw [hlines, hcons, hlater, List.append_assoc, List.singleton_append]
    · rw [hcount, List.length_append, List.length_singleton]
    · cases hline : line.degraded with
      | true =>
        have hnamed := hnames.noteDegraded hline
        rw [← hcount] at hnamed
        exact hnamed.of_diagnostics (by simp only [hline, if_true])
      | false => exact (hnames.concat hline).of_diagnostics (by simp [hline])

/-- Writing an item tells of no line, and does not end the input. -/
theorem Tells.put (h : c.Tells lines) (item : Item) :
    (c.put item).converter.Tells lines ∧
      ∀ result c', c.put item = .answer result c' → result ≠ .ok none := by
  have hwriter (read : List Line) (hnames : c.writer.Names read) := hnames.write item
  rw [Converter.put]
  generalize c.writer.write item = written at hwriter
  obtain ⟨k?, w⟩ := written
  cases k? with
  | none =>
    refine ⟨h.of_reader rfl hwriter, ?_⟩
    intro result c' hput
    cases hput
  | some k =>
    refine ⟨h.of_reader rfl hwriter, ?_⟩
    rintro result c' hput rfl
    cases hput

theorem Tells.withUnread (h : c.Tells lines) (cs : List Char) : (c.withUnread cs).Tells lines :=
  h.of_reader rfl fun _ hnames => hnames

/-- What a turn tells, and that it ends the input only where all lines were read. -/
theorem Tells.turn (h : c.Tells lines) (p : Phase) :
    (c.turn p).converter.Tells lines ∧
      ∀ c', c.turn p = .answer (.ok none) c' → c'.reader.lines = [] := by
  have hclose {c : Converter} (h : c.Tells lines) (q : Quest) :
      (c.close q).converter.Tells lines ∧
        ∀ c', c.close q = .answer (.ok none) c' → c'.reader.lines = [] := by
    obtain ⟨htells, hanswer⟩ := (h.withUnread _).put (q.item c.unread).1
    exact ⟨htells, fun c' hc' => absurd rfl (hanswer _ c' hc')⟩
  generalize hmove : c.turn p = move
  cases turn_eq_iff.1 hmove with
  | act hwants =>
    cases p with
    | seeking q => exact hclose h q
    | between =>
      rw [act]
      split
      · exact ⟨h.of_reader rfl fun _ hnames => hnames, fun c' hc' => by cases hc'⟩
      · exact ⟨h.withUnread _, fun c' hc' => by cases hc'⟩
      · exact ⟨h.withUnread _, fun c' hc' => by cases hc'⟩
      · exact ⟨h, fun c' hc' => by cases hc'⟩
      · obtain ⟨htells, hanswer⟩ := (h.withUnread _).put _
        exact ⟨htells, fun c' hc' => absurd rfl (hanswer _ c' hc')⟩
      · obtain ⟨htells, hanswer⟩ := (h.withUnread _).put _
        exact ⟨htells, fun c' hc' => absurd rfl (hanswer _ c' hc')⟩
  | failed _ hrefill =>
    obtain ⟨-, htrue | ⟨hfalse, -⟩⟩ := h.refill
    · rw [hrefill] at htrue
      cases htrue
    · rw [hrefill] at hfalse
      cases hfalse
  | line _ hrefill =>
    have htells := h.refill.1
    rw [hrefill] at htells
    exact ⟨htells, fun c' hc' => by cases hc'⟩
  | @atEnd c' _ hrefill =>
    obtain ⟨htells, htrue | ⟨-, hnil⟩⟩ := h.refill
    · rw [hrefill] at htrue
      cases htrue
    · rw [hrefill] at htells hnil
      cases p with
      | seeking q => exact hclose htells q
      | between =>
        refine ⟨htells.of_reader rfl fun _ hnames => hnames, ?_⟩
        intro c'' hc''
        cases hc''
        exact hnil

/-- What the turns of a call tell. -/
theorem Tells.answers {n : Nat} {p : Phase}
    {answer : Except ReadError (Option Chunk) × Converter} (h : c.Tells lines)
    (hanswers : Answers n p c answer) :
    answer.2.Tells lines ∧ (answer.1 = .ok none → answer.2.reader.lines = []) := by
  induction hanswers with
  | @last p c c' result hturn =>
    obtain ⟨htells, hend⟩ := h.turn p
    rw [hturn] at htells hend
    exact ⟨htells, fun hresult => hend c' (by rw [← hresult])⟩
  | @onward n p p' c c' answer hturn _ ih =>
    have htells := (h.turn p).1
    rw [hturn] at htells
    exact ih htells

/-- What a call for the next chunk tells; it finds the input at its end only where all lines were
read. -/
theorem Tells.next (h : c.Tells lines) :
    c.next.2.Tells lines ∧ (c.next.1 = .ok none → c.next.2.reader.lines = []) := by
  obtain ⟨n, hanswers⟩ := answers_next c
  have hfresh : c.fresh.Tells lines := h.of_reader rfl fun _ hnames => hnames
  exact hfresh.answers hanswers

/-- **What a conversion tells** of the lines it reads. -/
theorem Tells.run (h : c.Tells lines) (hfailure : c.run.failure = none) :
    c.run.final.writer.Names lines := by
  rw [run_eq] at hfailure ⊢
  fun_induction Converter.run c with
  | case1 c e c' hnext =>
    rw [hnext] at hfailure
    cases hfailure
  | case2 c c' hnext =>
    obtain ⟨htells, hend⟩ := h.next
    rw [hnext] at htells hend ⊢
    obtain ⟨read, hlines, -, hnames⟩ := htells.told
    rw [hend rfl, List.append_nil] at hlines
    exact hlines ▸ hnames
  | case3 c k c' hnext _ _ ih =>
    have htells := h.next.1
    rw [hnext] at htells hfailure ⊢
    rw [← run_eq] at ih
    exact ih htells hfailure

/-- **Which lines a conversion names.** Where a line has room for a character and there are not too many
diagnostics, a conversion does not fail, however the bytes of the body arrive; and it names each degraded
line by one more than the number of lines that were read before it. The rows that are no text are the rows
of degraded lines, but a row has one more than the number of those lines before it that end a row. So the
diagnostics name the rows that are no text exactly when every line before a degraded one ends its row. -/
theorem softConversion_mem_iff {stream : Stream} (hstream : stream.Unbroken) {config : Config}
    (hlimit : 4 ≤ config.lineLimit)
    (hroom : (start stream .utf8 config).run.final.writer.diagnostics.length <
      Writer.maxDiagnostics) :
    (start stream .utf8 config).run.failure = none ∧
      (∀ n, .softConversion n ∈ (start stream .utf8 config).run.final.writer.diagnostics ↔
        ∃ before, DegradedBehind (Reader.start stream .utf8 config.lineLimit).run.lines before ∧
          n = before.length + 1) ∧
      (∀ n, Utf8.InvalidRow stream.bytes n ↔
        ∃ before, DegradedBehind (Reader.start stream .utf8 config.lineLimit).run.lines before ∧
          n = before.countP Line.endsRow + 1) ∧
      ((∀ n, .softConversion n ∈ (start stream .utf8 config).run.final.writer.diagnostics ↔
          Utf8.InvalidRow stream.bytes n) ↔
        ∀ before, DegradedBehind (Reader.start stream .utf8 config.lineLimit).run.lines before →
          ∀ line ∈ before, line.endsRow = true) := by
  have hsteady : (start stream .utf8 config).Steady True :=
    ⟨Reader.steady_start hstream _ _, fun _ _ _ => trivial⟩
  have hfailure := (delivers_run hsteady).1
  have hlines : (start stream .utf8 config).reader.lines =
      (Reader.start stream .utf8 config.lineLimit).run.lines := by
    rw [Reader.run_of_steady (Reader.steady_start hstream _ _)]
    rfl
  have hnames := (tells_start hstream .utf8 config).run hfailure hroom
  rw [hlines] at hnames
  have hrows (n : Nat) : Utf8.InvalidRow stream.bytes n ↔
      ∃ before, DegradedBehind (Reader.start stream .utf8 config.lineLimit).run.lines before ∧
        n = before.countP Line.endsRow + 1 := by
    have hmax : max config.lineLimit 1 = config.lineLimit := by omega
    have hbehind := Charset.degradedBehind_linesOf_iff hlimit stream.bytes (n - 1)
    rw [Reader.run_of_steady (Reader.steady_start hstream _ _), Reader.lines_start, hmax]
    simp only [Utf8.InvalidRow, List.mk_mem_zipIdx_iff_le_and_getElem?_sub]
    constructor
    · rintro ⟨row, ⟨hpos, hrow⟩, hnot⟩
      obtain ⟨before, hbefore, hcount⟩ := hbehind.2 ⟨row, hrow, hnot⟩
      exact ⟨before, hbefore, by omega⟩
    · rintro ⟨before, hbefore, hcount⟩
      obtain ⟨row, hrow, hnot⟩ := hbehind.1 ⟨before, hbefore, by omega⟩
      exact ⟨row, ⟨by omega, hrow⟩, hnot⟩
  refine ⟨hfailure, hnames, hrows, ?_⟩
  rw [← DegradedBehind.numbers_iff]
  exact forall_congr' fun n => by rw [hnames n, hrows n]

/-- Two rows, the second of which is no text: its line is the second one. -/
theorem softConversion_mem_of_rows :
    (Stream.Unbroken [.segment [0x61, 0x0A, 0xFF, 0x62, 0x0A]] ∧
        4 ≤ ({ lineLimit := 4 } : Config).lineLimit ∧
        (start [.segment [0x61, 0x0A, 0xFF, 0x62, 0x0A]] .utf8
          { lineLimit := 4 }).run.final.writer.diagnostics.length < Writer.maxDiagnostics) ∧
      .softConversion 2 ∈ (start [.segment [0x61, 0x0A, 0xFF, 0x62, 0x0A]] .utf8
        { lineLimit := 4 }).run.final.writer.diagnostics ∧
      Utf8.InvalidRow [0x61, 0x0A, 0xFF, 0x62, 0x0A] 2 := by
  have hstream : Stream.Unbroken [.segment [0x61, 0x0A, 0xFF, 0x62, 0x0A]] := trivial
  have hroom : (start [.segment [0x61, 0x0A, 0xFF, 0x62, 0x0A]] .utf8
      { lineLimit := 4 }).run.final.writer.diagnostics.length < Writer.maxDiagnostics := by cbv
  have hlines : (Reader.start [.segment [0x61, 0x0A, 0xFF, 0x62, 0x0A]] .utf8 4).run.lines =
      [⟨[0x61, 0x0A], ['a', '\n'], false⟩,
        ⟨[0xFF, 0x62, 0x0A], ['\uFFFD', 'b', '\n'], true⟩] := by cbv
  have hbehind : DegradedBehind
      (Reader.start [.segment [0x61, 0x0A, 0xFF, 0x62, 0x0A]] .utf8 4).run.lines
        [⟨[0x61, 0x0A], ['a', '\n'], false⟩] := ⟨_, [], hlines, rfl⟩
  have hlimit : 4 ≤ ({ lineLimit := 4 } : Config).lineLimit := by decide
  obtain ⟨-, hnames, hrows, -⟩ := softConversion_mem_iff hstream hlimit hroom
  exact ⟨⟨hstream, hlimit, hroom⟩, (hnames 2).2 ⟨_, hbehind, rfl⟩,
    (hrows 2).2 ⟨_, hbehind, rfl⟩⟩

/-- One row that ends inside a character. The limit cuts it there, so that what is held back becomes a
line of its own, and the diagnostic names a second line. -/
theorem softConversion_mem_of_cut_row :
    (start [.segment [0x61, 0x62, 0x63, 0xC3]] .utf8
        { lineLimit := 4 }).run.final.writer.diagnostics = [.softConversion 2] ∧
      (∀ n, Utf8.InvalidRow [0x61, 0x62, 0x63, 0xC3] n ↔ n = 1) ∧
      ¬ ∀ n, .softConversion n ∈ (start [.segment [0x61, 0x62, 0x63, 0xC3]] .utf8
          { lineLimit := 4 }).run.final.writer.diagnostics ↔
        Utf8.InvalidRow [0x61, 0x62, 0x63, 0xC3] n := by
  have hdiagnostics : (start [.segment [0x61, 0x62, 0x63, 0xC3]] .utf8
      { lineLimit := 4 }).run.final.writer.diagnostics = [.softConversion 2] := by cbv
  have hrow : ¬ Utf8.IsText [0x61, 0x62, 0x63, 0xC3] := by
    rw [← Utf8.strict?_eq_none_iff]
    cbv
  have hrows (n : Nat) : Utf8.InvalidRow [0x61, 0x62, 0x63, 0xC3] n ↔ n = 1 := by
    have hsplit : ([0x61, 0x62, 0x63, 0xC3] : List UInt8).splitOn lineEnd =
        [[0x61, 0x62, 0x63, 0xC3]] := by decide
    simp [Utf8.InvalidRow, hsplit, hrow]
  refine ⟨hdiagnostics, hrows, fun h => ?_⟩
  have hone := (h 1).2 ((hrows 1).2 rfl)
  rw [hdiagnostics] at hone
  simp at hone

end Converter

end BodyText
