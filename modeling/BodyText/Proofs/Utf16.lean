import BodyText.Charset.Encoding
import BodyText.Proofs.Codes
import BodyText.Proofs.ValidText

/-!
# Bodies that are texts in UTF-16

UTF-16 as a code (`Utf16.code`): a character is one unit of two bytes, or a pair of them. A line ends
at the byte of a line end, which may be the first byte of a unit, or stand in the first unit of a
pair. A body in UTF-16 is read intact exactly when no character of it has that byte before its last
one (`Reader.run_start_utf16`); in the order that puts the low byte first, the line end itself is such
a character.
-/

namespace BodyText

namespace Utf16

/-! ### Units -/

/-- The units of a character: one, or a pair of surrogates. -/
def units (c : Char) : List Nat :=
  if c.toNat < 0x10000 then [c.toNat]
  else [0xD800 + (c.toNat - 0x10000) / 1024, 0xDC00 + (c.toNat - 0x10000) % 1024]

/-- The bytes of a unit. -/
def ByteOrder.bytes : ByteOrder → Nat → List UInt8
  | .little, unit => [UInt8.ofNat (unit % 256), UInt8.ofNat (unit / 256)]
  | .big, unit => [UInt8.ofNat (unit / 256), UInt8.ofNat (unit % 256)]

/-- The bytes of a character. -/
def encodeChar (order : ByteOrder) (c : Char) : List UInt8 := (units c).flatMap order.bytes

/-- The bytes of a text. -/
def encode (order : ByteOrder) (text : List Char) : List UInt8 := text.flatMap (encodeChar order)

theorem length_bytes (order : ByteOrder) (unit : Nat) : (order.bytes unit).length = 2 := by
  cases order <;> rfl

theorem length_encodeChar (order : ByteOrder) (c : Char) :
    (encodeChar order c).length = 2 * (units c).length := by
  rw [encodeChar, List.length_flatMap, List.map_congr_left fun unit _ => length_bytes order unit,
    List.map_const', List.sum_replicate, smul_eq_mul, Nat.mul_comm]

theorem length_units (c : Char) : (units c).length = 1 ∨ (units c).length = 2 := by
  rw [units]
  split
  · exact .inl rfl
  · exact .inr rfl

theorem exists_bytes (order : ByteOrder) {unit : Nat} (h : unit < 0x10000) :
    ∃ first second, order.bytes unit = [first, second] ∧ order.unit first second = unit := by
  have hlow : (UInt8.ofNat (unit % 256)).toNat = unit % 256 := by
    rw [UInt8.toNat_ofNat']
    omega
  have hhigh : (UInt8.ofNat (unit / 256)).toNat = unit / 256 := by
    rw [UInt8.toNat_ofNat']
    omega
  cases order with
  | little =>
    refine ⟨_, _, rfl, ?_⟩
    rw [ByteOrder.unit, hlow, hhigh]
    omega
  | big =>
    refine ⟨_, _, rfl, ?_⟩
    rw [ByteOrder.unit, hlow, hhigh]
    omega

/-- The units of a character, by how the decoder reads them. -/
theorem units_cases (c : Char) :
    (∃ unit, units c = [unit] ∧ unit < 0x10000 ∧ unitStep none unit = ([some c], none)) ∨
      ∃ high low, units c = [high, low] ∧ high < 0x10000 ∧ low < 0x10000 ∧
        unitStep none high = ([], some high) ∧ unitStep (some high) low = ([some c], none) := by
  have hvalid : c.toNat < 0xD800 ∨ 0xDFFF < c.toNat ∧ c.toNat < 0x110000 := c.valid
  have hc : Char.ofNat c.toNat = c := Char.ofNat_toNat c
  rw [units]
  generalize c.toNat = n at hvalid hc
  by_cases hn : n < 0x10000
  · rw [if_pos hn]
    refine .inl ⟨n, rfl, hn, ?_⟩
    have hhigh : ¬ isHigh n = true := by
      rw [isHigh]
      simp
      omega
    have hlow : ¬ isLow n = true := by
      rw [isLow]
      simp
      omega
    rw [unitStep, single, if_neg hhigh, if_neg hlow, hc]
  · rw [if_neg hn]
    refine .inr ⟨_, _, rfl, by omega, by omega, ?_, ?_⟩
    · have hhigh : isHigh (0xD800 + (n - 0x10000) / 1024) = true := by
        rw [isHigh]
        simp
        omega
      rw [unitStep, single, if_pos hhigh]
    · have hlow : isLow (0xDC00 + (n - 0x10000) % 1024) = true := by
        rw [isLow]
        simp
        omega
      have hpair : pair (0xD800 + (n - 0x10000) / 1024) (0xDC00 + (n - 0x10000) % 1024) = c := by
        have hn' : 0x10000 + (0xD800 + (n - 0x10000) / 1024 - 0xD800) * 1024 +
            (0xDC00 + (n - 0x10000) % 1024 - 0xDC00) = n := by omega
        rw [pair, hn', hc]
      rw [unitStep, if_pos hlow, hpair]

/-! ### Reading units -/

section

variable {order : ByteOrder}

/-- Two bytes that are read are a unit. -/
theorem piecesFrom_unit (high : Option Nat) (first second : UInt8) (more : List UInt8) :
    (Decoder.utf16 order).piecesFrom ⟨high, none⟩ (first :: second :: more) =
      (unitStep high (order.unit first second)).1 ++
        (Decoder.utf16 order).piecesFrom ⟨(unitStep high (order.unit first second)).2, none⟩ more :=
  rfl

/-- Bytes of a unit, read after those before it. -/
theorem piecesFrom_half (high : Option Nat) (first : UInt8) :
    (Decoder.utf16 order).piecesFrom ⟨high, none⟩ [first] = [none] := by
  change finish ⟨high, some first⟩ = [none]
  rw [finish, if_pos (by simp)]

/-- Once a character is complete, it is settled. -/
theorem pieces_encodeChar (order : ByteOrder) (c : Char) (more : List UInt8) :
    (Decoder.utf16 order).pieces (encodeChar order c ++ more) =
      some c :: (Decoder.utf16 order).pieces more := by
  rw [Decoder.pieces, encodeChar]
  change (Decoder.utf16 order).piecesFrom ⟨none, none⟩ _ = _
  rcases units_cases c with ⟨unit, hunits, hlt, hread⟩ | ⟨high, low, hunits, hhigh, hlow, hread, hread'⟩
  · obtain ⟨b, b', hbytes, hunit⟩ := exists_bytes order hlt
    rw [hunits, List.flatMap_singleton, hbytes]
    change (Decoder.utf16 order).piecesFrom ⟨none, none⟩ (b :: b' :: more) = _
    rw [piecesFrom_unit, hunit, hread]
    rfl
  · obtain ⟨b, b', hbytes, hunit⟩ := exists_bytes order hhigh
    obtain ⟨d, d', hbytes', hunit'⟩ := exists_bytes order hlow
    rw [hunits, List.flatMap_cons, List.flatMap_singleton, hbytes, hbytes']
    change (Decoder.utf16 order).piecesFrom ⟨none, none⟩ (b :: b' :: d :: d' :: more) = _
    rw [piecesFrom_unit, hunit, hread, piecesFrom_unit, hunit', hread']
    rfl

/-- Before a character is complete, nothing is settled, and the end makes it an error. -/
theorem pieces_start {c : Char} {start more : List UInt8} (h : encodeChar order c = start ++ more)
    (hstart : start ≠ []) (hmore : more ≠ []) : (Decoder.utf16 order).pieces start = [none] := by
  change (Decoder.utf16 order).piecesFrom ⟨none, none⟩ start = _
  rw [encodeChar] at h
  rcases units_cases c with ⟨unit, hunits, hlt, -⟩ | ⟨high, low, hunits, hhigh, hlow, hread, -⟩
  · obtain ⟨b, b', hbytes, -⟩ := exists_bytes order hlt
    rw [hunits, List.flatMap_singleton, hbytes] at h
    match start, h with
    | [], _ => exact absurd rfl hstart
    | [_], _ => exact piecesFrom_half none _
    | [_, _], h =>
      obtain ⟨-, -, hnil⟩ : b = _ ∧ b' = _ ∧ more = [] := by simpa using h
      exact absurd hnil hmore
    | _ :: _ :: _ :: _, h => simp at h
  · obtain ⟨b, b', hbytes, hunit⟩ := exists_bytes order hhigh
    obtain ⟨d, d', hbytes', -⟩ := exists_bytes order hlow
    rw [hunits, List.flatMap_cons, List.flatMap_singleton, hbytes, hbytes'] at h
    -- the first unit of the pair waits for its partner
    have hpair : ∀ later, (Decoder.utf16 order).piecesFrom ⟨none, none⟩ (b :: b' :: later) =
        (Decoder.utf16 order).piecesFrom ⟨some high, none⟩ later := by
      intro later
      rw [piecesFrom_unit, hunit, hread]
      rfl
    match start, h with
    | [], _ => exact absurd rfl hstart
    | [_], _ => exact piecesFrom_half none _
    | [_, _], h =>
      obtain ⟨rfl, rfl, -⟩ : b = _ ∧ b' = _ ∧ _ := by simpa using h
      exact hpair []
    | [_, _, _], h =>
      obtain ⟨rfl, rfl, -⟩ : b = _ ∧ b' = _ ∧ _ := by simpa using h
      exact (hpair _).trans (piecesFrom_half (some high) _)
    | [_, _, _, _], h =>
      obtain ⟨-, -, -, -, hnil⟩ : b = _ ∧ b' = _ ∧ d = _ ∧ d' = _ ∧ more = [] := by simpa using h
      exact absurd hnil hmore
    | _ :: _ :: _ :: _ :: _ :: _, h => simp at h

/-- UTF-16 as a code. -/
def code (order : ByteOrder) : (Decoder.utf16 order).Code where
  encodeChar := encodeChar order
  encodeChar_ne_nil c := by
    have hlen := length_encodeChar order c
    have hunits := length_units c
    exact List.length_pos_iff.1 (by omega)
  length_encodeChar_le c := by
    have hlen := length_encodeChar order c
    have hunits := length_units c
    omega
  pieces_nil := rfl
  pieces_encodeChar := pieces_encodeChar order
  pieces_start := pieces_start

/-- The encoding in a byte order. -/
def ByteOrder.encoding : ByteOrder → Encoding
  | .little => .utf16le
  | .big => .utf16be

/-- A character of one unit has the byte of a line end before its last byte when its first byte is
that. With the low byte first, the line end is such a character itself. -/
theorem splits_iff (order : ByteOrder) {c : Char} (h : c.toNat < 0x10000) :
    (code order).Splits c ↔
      (match order with
        | .little => c.toNat % 256
        | .big => c.toNat / 256) = 10 := by
  have hbytes : encodeChar order c = order.bytes c.toNat := by
    rw [encodeChar, units, if_pos h, List.flatMap_singleton]
  have hmem : ∀ {n : Nat}, n < 256 → (lineEnd ∈ [UInt8.ofNat n] ↔ n = 10) := by
    intro n hn
    rw [List.mem_singleton, ← UInt8.toNat_inj, UInt8.toNat_ofNat', Nat.mod_eq_of_lt hn, eq_comm]
    rfl
  change lineEnd ∈ (encodeChar order c).dropLast ↔ _
  rw [hbytes]
  cases order with
  | little => exact hmem (Nat.mod_lt _ (by decide))
  | big => exact hmem (by omega)

/-- U+FFFD is no such character. -/
theorem not_splits_replacementChar (order : ByteOrder) :
    ¬ (code order).Splits replacementChar := by
  rw [splits_iff order (by decide)]
  cases order <;> decide

end

end Utf16

/-! ### Conversions of a text -/

section

variable {label : String} {order : Utf16.ByteOrder} {stream : Stream} {text : List Char}

/-- The lines of a text in UTF-16, where a reader starts. -/
theorem Reader.lines_start_utf16 (hlabel : Encoding.ofLabel? label = some order.encoding)
    (hbytes : stream.bytes = Utf16.encode order text) {limit : Nat} (hlimit : 4 ≤ limit) :
    (start stream (Encoding.ofLabelOrUtf8 label).charset limit).lines =
      (Charset.ofDecoder order.encoding.name (.utf16 order) false).linesOf limit
        ((Utf16.code order).encode text) := by
  have hmax : max limit 1 = limit := by omega
  have hencoding : Encoding.ofLabelOrUtf8 label = order.encoding := by
    rw [Encoding.ofLabelOrUtf8, hlabel, Option.getD_some]
  rw [lines_start, hmax, hbytes, hencoding]
  cases order <;> rfl

/-- **Which texts in UTF-16 are read intact.** Under either order of bytes, by whatever label it is
named, however the bytes arrive, and wherever a limit with room for a character cuts them, the body
is read to its end. The texts of its lines are its text and no line is told of as degraded exactly
when no character has the byte of a line end before its last byte; otherwise the first that has is
read as U+FFFD, after all that stands before it. -/
theorem Reader.run_start_utf16 (hlabel : Encoding.ofLabel? label = some order.encoding)
    (hstream : stream.Unbroken) (hbytes : stream.bytes = Utf16.encode order text)
    (config : Config) (hlimit : 4 ≤ config.lineLimit) :
    (start stream (Encoding.ofLabelOrUtf8 label).charset config.lineLimit).run.failure = none ∧
      ((((start stream (Encoding.ofLabelOrUtf8 label).charset config.lineLimit).run.lines.map
            Line.text).flatten = text ∧
          ∀ line, .softConversion line ∉ (Converter.start stream
            (Encoding.ofLabelOrUtf8 label).charset config).run.final.writer.diagnostics) ↔
        ∀ c ∈ text, ¬ (Utf16.code order).Splits c) ∧
      ((∃ c ∈ text, (Utf16.code order).Splits c) →
        ∃ later, ((start stream (Encoding.ofLabelOrUtf8 label).charset
            config.lineLimit).run.lines.map Line.text).flatten =
          text.takeWhile (fun c => ¬ (Utf16.code order).Splits c) ++ replacementChar :: later) := by
  have hlines := lines_start_utf16 hlabel hbytes hlimit
  have hsteady := steady_start hstream (Encoding.ofLabelOrUtf8 label).charset config.lineLimit
  rw [run_of_steady hsteady, hlines]
  refine ⟨rfl, ?_, (Utf16.code order).exists_flatten_linesOf_encode _ _ hlimit⟩
  have hiff := (Utf16.code order).flatten_linesOf_encode_iff order.encoding.name false
    (Utf16.not_splits_replacementChar order) hlimit text
  refine ⟨fun h => hiff.1 h.1, fun hnone => ⟨hiff.2 hnone, ?_⟩⟩
  have hstart :
      (Converter.start stream (Encoding.ofLabelOrUtf8 label).charset config).Steady False := by
    refine ⟨hsteady, fun line hline hdegraded => ?_⟩
    rw [Converter.start, hlines] at hline
    rw [(Utf16.code order).degraded_linesOf_encode _ _ hlimit hnone line hline] at hdegraded
    cases hdegraded
  exact (Converter.delivers_run hstart).2.not_mem_diagnostics rfl

/-- A text with a line end, the high byte of each unit first, under the smallest limit, which cuts
the last character. -/
theorem Reader.run_start_utf16_big :
    (Encoding.ofLabel? "UTF-16BE" = some Utf16.ByteOrder.big.encoding ∧
        ∀ c ∈ ['a', '\n', 'é', '😀'], ¬ (Utf16.code .big).Splits c) ∧
      ((start [.segment (Utf16.encode .big ['a', '\n', 'é', '😀'])]
        (Encoding.ofLabelOrUtf8 "UTF-16BE").charset 4).run.lines.map Line.text).flatten =
          ['a', '\n', 'é', '😀'] := by
  have hlabel : Encoding.ofLabel? "UTF-16BE" = some Utf16.ByteOrder.big.encoding := by decide
  have hnone : ∀ c ∈ ['a', '\n', 'é', '😀'], ¬ (Utf16.code .big).Splits c := by
    intro c hc
    fin_cases hc <;> decide
  have hstream : Stream.Unbroken [.segment (Utf16.encode .big ['a', '\n', 'é', '😀'])] := trivial
  have hrun := run_start_utf16 hlabel hstream (List.append_nil _) { lineLimit := 4 } (by decide)
  exact ⟨⟨hlabel, hnone⟩, (hrun.2.1.2 hnone).1⟩

/-- With the low byte first, a line end ends its line in the middle: the rest of it is read as part
of the next character. -/
theorem Reader.run_start_utf16_little :
    (start [.segment (Utf16.encode .little ['a', '\n', 'b'])]
        (Encoding.ofLabelOrUtf8 "utf-16le").charset 8192).run.lines.map Line.text =
          [['a', '\uFFFD'], ['\u6200', '\uFFFD']] ∧
      ((start [.segment (Utf16.encode .little ['a', '\n', 'b'])]
        (Encoding.ofLabelOrUtf8 "utf-16le").charset 8192).run.lines.map Line.text).flatten ≠
          ['a', '\n', 'b'] ∧
      .softConversion 1 ∈ (Converter.start [.segment (Utf16.encode .little ['a', '\n', 'b'])]
        (Encoding.ofLabelOrUtf8 "utf-16le").charset {}).run.final.writer.diagnostics := by
  have hlines : (start [.segment (Utf16.encode .little ['a', '\n', 'b'])]
      (Encoding.ofLabelOrUtf8 "utf-16le").charset 8192).run.lines.map Line.text =
        [['a', '\uFFFD'], ['\u6200', '\uFFFD']] := by cbv
  refine ⟨hlines, ?_, ?_⟩
  · rw [hlines]
    decide
  · have hdiagnostics : (Converter.start [.segment (Utf16.encode .little ['a', '\n', 'b'])]
        (Encoding.ofLabelOrUtf8 "utf-16le").charset {}).run.final.writer.diagnostics =
          [.softConversion 1, .softConversion 2] := by cbv
    rw [hdiagnostics]
    exact List.mem_cons_self

end

end BodyText
