import BodyText.Proofs.TextAhead

/-!
# No byte is lost

Each read makes a line of the bytes that were held back and those that arrive, and may hold some of
them back in turn. Whatever charset decodes the lines and wherever the input is cut or pauses, each
byte that arrived was decoded once or is held back, in the order in which they arrived
(`Reader.Accounts`); at most three are held back, and always fewer than a line may have. So there is room
in the line for a byte more whenever bytes are taken from the input, and a read that comes to no line has
found no bytes at all (`Reader.conserves_bytes`).
-/

namespace BodyText

/-! ### Filling a line -/

namespace Stream

/-- Takes the rest of a line behind the bytes at hand, until there are `limit` of them. Refused (`none`)
when there is no room for a byte more where some arrive. -/
def fill? (limit : Nat) (raw : List UInt8) : Stream → Option (Except ReadError (List UInt8) × Stream)
  | [] => some (.ok raw, [])
  | .pause :: s => some (.ok raw, s)
  | .interrupted :: s => fill? limit raw s
  | .failure cause :: s => some (.error ⟨cause⟩, s)
  | .segment bs :: s =>
    if raw.length < limit then
      let taken := lineHead (limit - raw.length) bs
      if taken.length = limit - raw.length ∨ taken.getLast? = some lineEnd then
        some (.ok (raw ++ taken), putBack (bs.drop taken.length) s)
      else fill? limit (raw ++ taken) s
    else none

/-- Where there is room at first, there is room whenever bytes arrive, and the line is the one that is
taken by counting the room down. -/
theorem fill?_eq {limit : Nat} {raw : List UInt8} (h : raw.length < limit) (s : Stream) :
    s.fill? limit raw =
      some ((s.takeLine (limit - raw.length)).1.map (raw ++ ·),
        (s.takeLine (limit - raw.length)).2) := by
  induction s generalizing raw with
  | nil => simp [fill?, takeLine, Except.map]
  | cons f s ih =>
    cases f with
    | pause => simp [fill?, takeLine, Except.map]
    | interrupted => exact ih h
    | failure cause => simp [fill?, takeLine, Except.map]
    | segment bs =>
      rw [fill?, if_pos h, takeLine]
      by_cases hstop : (lineHead (limit - raw.length) bs).length = limit - raw.length ∨
          (lineHead (limit - raw.length) bs).getLast? = some lineEnd
      · simp only [if_pos hstop]
        rfl
      · have hle := length_lineHead_le (limit - raw.length) bs
        have hne := (not_or.1 hstop).1
        -- the segment did not fill the line, so there is room behind it
        have hroom : (raw ++ lineHead (limit - raw.length) bs).length < limit := by
          rw [List.length_append]
          omega
        have hrest : limit - (raw ++ lineHead (limit - raw.length) bs).length =
            limit - raw.length - (lineHead (limit - raw.length) bs).length := by
          rw [List.length_append, Nat.sub_add_eq]
        simp only [if_neg hstop]
        rw [ih hroom, hrest]
        generalize takeLine (limit - raw.length - _) s = result
        obtain ⟨taken | taken, s'⟩ := result
        · rfl
        · simp only [Except.map, List.append_assoc]

end Stream

/-! ### The account of a line -/

/-- What a line is made of: some bytes, as many as a line may have at most, and their text in the charset,
faithful or degraded. -/
structure Line.Made (charset : Charset) (limit : Nat) (line : Line) : Prop where
  /-- A line holds some bytes. -/
  ne_nil : line.bytes ≠ []
  /-- A line holds no more bytes than the limit. -/
  length_le : line.bytes.length ≤ limit
  /-- The text is that of the bytes. -/
  text : if line.degraded then line.text = charset.decodeLossy line.bytes
    else charset.decode line.bytes = .ok line.text

namespace Charset

theorem text_decodeLine_of (charset : Charset) (isCut : Bool) (raw : List UInt8) :
    if (charset.decodeLine isCut raw).degraded then
      (charset.decodeLine isCut raw).text =
        charset.decodeLossy (charset.decodeLine isCut raw).bytes
    else
      charset.decode (charset.decodeLine isCut raw).bytes =
        .ok (charset.decodeLine isCut raw).text := by
  rw [decodeLine]
  generalize hfound : List.findSome? (charset.decodeHolding? raw) _ = found
  cases found with
  | none => rfl
  | some line =>
    obtain ⟨held, -, hline⟩ := List.exists_of_findSome?_eq_some hfound
    rw [decodeHolding?] at hline
    split at hline
    · cases hline
    · split at hline
      · rename_i text hdecode
        cases hline
        exact hdecode
      · cases hline

/-- A line holds back three bytes at most. -/
theorem length_le_decodeLine (charset : Charset) (isCut : Bool) (raw : List UInt8) :
    raw.length ≤ (charset.decodeLine isCut raw).bytes.length + 3 := by
  rw [decodeLine]
  generalize hfound : List.findSome? (charset.decodeHolding? raw) _ = found
  cases found with
  | none => exact Nat.le_add_right _ _
  | some line =>
    obtain ⟨held, hmem, hline⟩ := List.exists_of_findSome?_eq_some hfound
    have hheld : held ≤ 3 := by
      cases isCut <;> simp at hmem <;> omega
    rw [Option.getD_some, (decodeHolding?_bytes hline).2, List.length_take]
    omega

/-- A line is made of bytes that there are. -/
theorem made_lineOf (charset : Charset) {limit : Nat} {raw : List UInt8} (hne : raw ≠ [])
    (hlen : raw.length ≤ limit) : (charset.lineOf limit raw).Made charset limit where
  ne_nil := (charset.decodeLine_bytes _ hne).1
  length_le := (charset.length_lineOf_le limit hne).trans hlen
  text := charset.text_decodeLine_of _ raw

/-- A charset whose degraded decoding may be done in parts, and agrees with the faithful one where that
does not refuse. -/
structure Compositional (charset : Charset) : Prop where
  /-- Degraded decoding may be done in parts. -/
  lossy_append : ∀ xs ys,
    charset.decodeLossy (xs ++ ys) = charset.decodeLossy xs ++ charset.decodeLossy ys
  /-- Where faithful decoding does not refuse, the degraded one gives the same text. -/
  lossy_of_ok : ∀ bytes text, charset.decode bytes = .ok text → charset.decodeLossy bytes = text

/-- The charsets of one byte for each character are decoded byte by byte. -/
theorem compositional_ofCodePage (name : String) (page : CodePage) (isLatin1 : Bool) :
    (ofDecoder name (.ofCodePage page) isLatin1).Compositional where
  lossy_append xs ys := by
    simp only [ofDecoder, CodePage.lossy_ofCodePage, List.map_append]
  lossy_of_ok bytes text h := by
    simp only [ofDecoder] at h ⊢
    split at h
    · rename_i hstrict
      cases h
      exact Decoder.lossy_of_strict? _ hstrict
    · cases h

theorem Compositional.lossy_nil {charset : Charset} (h : charset.Compositional) :
    charset.decodeLossy [] = [] := by
  have hlen := congrArg List.length (h.lossy_append [] [])
  rw [List.append_nil, List.length_append] at hlen
  exact List.length_eq_zero_iff.1 (by omega)

/-- The texts of lines are, one behind the other, the degraded text of their bytes. -/
theorem Compositional.text_eq {charset : Charset} (h : charset.Compositional) {limit : Nat}
    {lines : List Line} (hmade : ∀ line ∈ lines, line.Made charset limit) :
    lines.flatMap Line.text = charset.decodeLossy (lines.flatMap Line.bytes) := by
  induction lines with
  | nil => exact h.lossy_nil.symm
  | cons line lines ih =>
    have hline := (hmade line List.mem_cons_self).text
    have htext : line.text = charset.decodeLossy line.bytes := by
      split at hline
      · exact hline
      · exact (h.lossy_of_ok _ _ hline).symm
    rw [List.flatMap_cons, List.flatMap_cons, h.lossy_append, htext,
      ih fun line hmem => hmade line (List.mem_cons_of_mem _ hmem)]

end Charset

/-! ### The account of the reads -/

namespace Reader

/-- A number of reads, one after the other: the answers, and the reader after them. -/
def reads : Nat → Reader → List (Except ReadError (Option Line)) × Reader
  | 0, r => ([], r)
  | n + 1, r =>
    match r.pull with
    | (answer, r') =>
      match reads n r' with
      | (answers, r'') => (answer :: answers, r'')

/-- The lines that reads came to account for the bytes that arrived: `lines` were read since `start`, and
`r` is the reader after them. -/
structure Accounts (start : Reader) (lines : List Line) (r : Reader) : Prop where
  /-- The charset stays. -/
  charset : r.charset = start.charset
  /-- The limit stays. -/
  limit : r.limit = start.limit
  /-- Each byte was decoded once, or is held back, or is still to arrive. -/
  bytes : start.pending = lines.flatMap Line.bytes ++ r.carry ++ r.stream.bytes
  /-- The lines are made of their bytes. -/
  made : ∀ line ∈ lines, line.Made start.charset start.limit
  /-- At most three bytes are held back. -/
  carry : r.carry.length ≤ 3
  /-- There is room for a byte more than those held back. -/
  roomy : r.Roomy

/-- What a read comes to whose input does not fail: the account of the bytes that it made a line of. -/
theorem Accounts.settle {start r : Reader} {lines : List Line} (h : start.Accounts lines r)
    {taken : List UInt8} {s : Stream}
    (htake : r.stream.takeLine (r.limit - r.carry.length) = (.ok taken, s)) :
    start.Accounts (lines ++ ({ r with stream := s }.settle (r.carry ++ taken)).1.toList)
      ({ r with stream := s }.settle (r.carry ++ taken)).2 := by
  have hroomy : r.carry.length < r.limit := h.roomy
  have hbytes := Stream.takeLine_bytes htake
  have hraw : (r.carry ++ taken).length ≤ r.limit := by
    have hlen := Stream.length_takeLine_le htake
    rw [List.length_append]
    omega
  have hroomy' := roomy_of_settle (r := { r with stream := s }) (Nat.zero_lt_of_lt hroomy) hraw
  by_cases hnil : r.carry ++ taken = []
  · obtain ⟨hcarry, htaken⟩ := List.append_eq_nil_iff.1 hnil
    rw [hnil, settle_nil] at hroomy' ⊢
    refine ⟨h.charset, h.limit, ?_, by simpa using h.made, Nat.zero_le 3, hroomy'⟩
    rw [h.bytes, hcarry, hbytes, htaken]
    simp
  · have hmade := r.charset.made_lineOf hnil hraw
    have hsplit := (r.charset.decodeLine_bytes ((r.carry ++ taken).length = r.limit &&
      (r.carry ++ taken).getLast? ≠ some lineEnd) hnil).2
    have hheld := r.charset.length_le_decodeLine ((r.carry ++ taken).length = r.limit &&
      (r.carry ++ taken).getLast? ≠ some lineEnd) (r.carry ++ taken)
    rw [settle_of_ne_nil _ hnil] at hroomy' ⊢
    rw [← Charset.lineOf] at hsplit hheld
    refine ⟨h.charset, h.limit, ?_, ?_, ?_, hroomy'⟩
    · -- the line and what it holds back are the bytes that were held back before and those taken
      simp only [Option.toList_some, List.flatMap_append, List.flatMap_cons, List.flatMap_nil,
        List.append_nil]
      calc
        start.pending = lines.flatMap Line.bytes ++ (r.carry ++ taken) ++ s.bytes := by
          rw [h.bytes, hbytes]
          simp only [List.append_assoc]
        _ = _ := by
          rw [← hsplit]
          simp only [List.append_assoc, hsplit]
    · intro line hmem
      rcases List.mem_append.1 hmem with hmem | hmem
      · exact h.made line hmem
      · rw [List.mem_singleton.1 hmem, ← h.charset, ← h.limit]
        exact hmade
    · rw [List.length_drop]
      exact Nat.sub_le_iff_le_add'.2 hheld

theorem accounts_start (stream : Stream) (charset : Charset) (limit : Nat) :
    (start stream charset limit).Accounts [] (start stream charset limit) where
  charset := rfl
  limit := rfl
  bytes := rfl
  made := fun _ hmem => absurd hmem List.not_mem_nil
  carry := Nat.zero_le 3
  roomy := roomy_start stream charset limit

/-- A read of an input that does not fail adds its line to the account. -/
theorem Accounts.pull {start r : Reader} {lines : List Line} (h : start.Accounts lines r)
    (hstream : r.stream.Unfailing) :
    ∃ line? r', r.pull = (.ok line?, r') ∧ start.Accounts (lines ++ line?.toList) r' ∧
      r'.stream.Unfailing := by
  obtain ⟨taken, s, htake, hs⟩ :=
    Stream.takeLine_of_unfailing hstream (r.limit - r.carry.length)
  refine ⟨_, _, ?_, h.settle htake, ?_⟩
  · rw [Reader.pull, htake]
  · rw [stream_settle]
    exact hs

/-- Reads of an input that does not fail come to lines, or find the input at its end. -/
theorem Accounts.reads {start r : Reader} {lines : List Line} (h : start.Accounts lines r)
    (hstream : r.stream.Unfailing) (n : Nat) :
    ∃ (lines? : List (Option Line)) (r' : Reader), r.reads n = (lines?.map .ok, r') ∧
      start.Accounts (lines ++ lines?.reduceOption) r' := by
  induction n generalizing r lines with
  | zero => exact ⟨[], r, rfl, by simpa using h⟩
  | succ n ih =>
    obtain ⟨line?, r', hpull, haccounts, hstream'⟩ := h.pull hstream
    obtain ⟨lines?, r'', hreads, haccounts'⟩ := ih haccounts hstream'
    refine ⟨line? :: lines?, r'', ?_, ?_⟩
    · rw [Reader.reads, hpull]
      simp only [hreads, List.map_cons]
    · rw [List.append_assoc] at haccounts'
      cases line? <;> exact haccounts'

/-! ### Room for a byte more -/

/-- Reads a line, and refuses where there is no room in it for the bytes that arrive. -/
def pull? (r : Reader) : Option (Except ReadError (Option Line) × Reader) :=
  (r.stream.fill? r.limit r.carry).map fun
    | (.error e, s) => (.error e, { r with stream := s, carry := [] })
    | (.ok raw, s) =>
      (.ok ({ r with stream := s }.settle raw).1, ({ r with stream := s }.settle raw).2)

/-- Where there is room for a byte more than those held back, no read is refused. -/
theorem pull?_eq {r : Reader} (h : r.Roomy) : r.pull? = some r.pull := by
  rw [pull?, Stream.fill?_eq h, Option.map_some, pull]
  generalize r.stream.takeLine (r.limit - r.carry.length) = result
  obtain ⟨e | taken, s⟩ := result <;> rfl

/-- The input is at its end where nothing was held back and no byte arrives. -/
theorem eq_nil_of_pull_none {r r' : Reader} (h : r.pull = (.ok none, r')) :
    r.carry = [] ∧ r.stream.takeLine r.limit = (.ok [], r'.stream) := by
  rw [pull] at h
  split at h
  · cases h
  · rename_i taken s htake
    have hnil : r.carry ++ taken = [] := by
      by_contra hne
      rw [settle_of_ne_nil _ hne] at h
      cases h
    obtain ⟨hcarry, htaken⟩ := List.append_eq_nil_iff.1 hnil
    rw [hnil, settle_nil] at h
    cases h
    rw [hcarry, htaken] at htake
    exact ⟨hcarry, htake⟩

/-- **No byte is lost.** From an input that does not fail, whatever the charset and the limit, any number of
reads come to lines or to the end of the input. What was decoded, what is held back and what is still to
arrive are the bytes of the input, in their order; each line was made of at least one byte and of no more
than the limit, which counts as one where it is zero; at most three bytes are held back, and fewer than the
limit. So the next read has room for a byte more whenever it takes bytes; and where it comes to the end of
the input, nothing was held back and no byte arrived. Where degraded decoding may be done in parts, as it may
in the charsets of one byte for each character, the texts of the lines are the degraded text of all bytes
that were decoded. -/
theorem conserves_bytes {stream : Stream} (h : stream.Unfailing) (charset : Charset)
    (limit n : Nat) :
    ∃ (lines? : List (Option Line)) (r : Reader),
      (start stream charset limit).reads n = (lines?.map .ok, r) ∧
      stream.bytes = lines?.reduceOption.flatMap Line.bytes ++ r.carry ++ r.stream.bytes ∧
      (∀ line ∈ lines?.reduceOption, line.Made charset (max limit 1)) ∧
      r.carry.length ≤ 3 ∧ r.carry.length < max limit 1 ∧ r.limit = max limit 1 ∧
      r.pull? = some r.pull ∧
      (∀ r', r.pull = (.ok none, r') →
        r.carry = [] ∧ r.stream.takeLine r.limit = (.ok [], r'.stream)) ∧
      (charset.Compositional →
        lines?.reduceOption.flatMap Line.text =
          charset.decodeLossy (lines?.reduceOption.flatMap Line.bytes)) ∧
      ∀ name page isLatin1,
        (Charset.ofDecoder name (.ofCodePage page) isLatin1).Compositional := by
  obtain ⟨lines?, r, hreads, haccounts⟩ := (accounts_start stream charset limit).reads h n
  rw [List.nil_append] at haccounts
  refine ⟨lines?, r, hreads, haccounts.bytes, haccounts.made, haccounts.carry, ?_,
    haccounts.limit, pull?_eq haccounts.roomy, fun _ => eq_nil_of_pull_none,
    fun hcharset => hcharset.text_eq haccounts.made, Charset.compositional_ofCodePage⟩
  have hroomy := haccounts.roomy
  rwa [Roomy, haccounts.limit] at hroomy

/-- A character that the limit and the segments cut: its first byte is held back, and there is room for
more. In a charset of one byte for each character the same bytes are two. -/
theorem conserves_bytes_of_cut_character :
    (Stream.Unfailing [.segment [0x61, 0xC3], .interrupted, .segment [0xA9, 0x62], .pause] ∧
        Encoding.windows1252.charset.Compositional) ∧
      (∃ r, (start [.segment [0x61, 0xC3], .interrupted, .segment [0xA9, 0x62], .pause]
          .utf8 2).reads 1 = ([.ok (some ⟨[0x61], ['a'], false⟩)], r) ∧
        [0x61, 0xC3, 0xA9, 0x62] = [0x61] ++ r.carry ++ r.stream.bytes ∧ r.carry.length < 2 ∧
        r.pull? = some r.pull) ∧
      Encoding.windows1252.charset.decodeLossy [0x61, 0xC3, 0xA9, 0x62] =
        ['a', 'Ã'] ++ ['©', 'b'] := by
  have hstream : Stream.Unfailing
      [.segment [0x61, 0xC3], .interrupted, .segment [0xA9, 0x62], .pause] := by
    simp [Stream.Unfailing]
  have hcharset : Encoding.windows1252.charset.Compositional :=
    Charset.compositional_ofCodePage _ _ _
  refine ⟨⟨hstream, hcharset⟩, ?_, ?_⟩
  · obtain ⟨lines?, r, hreads, hbytes, -, -, hcarry, -, hpull, -⟩ :=
      conserves_bytes hstream .utf8 2 1
    have hanswers : ((start [.segment [0x61, 0xC3], .interrupted, .segment [0xA9, 0x62], .pause]
        .utf8 2).reads 1).1 = [.ok (some ⟨[0x61], ['a'], false⟩)] := by cbv
    rw [hreads] at hanswers
    obtain ⟨line?, rfl, hline⟩ := List.map_eq_singleton_iff.1 hanswers
    cases hline
    exact ⟨r, hreads, hbytes, hcarry, hpull⟩
  · obtain ⟨lines?, r, hreads, -, -, -, -, -, -, -, htext, -⟩ :=
      conserves_bytes hstream Encoding.windows1252.charset 2 3
    have hanswers : ((start [.segment [0x61, 0xC3], .interrupted, .segment [0xA9, 0x62], .pause]
        Encoding.windows1252.charset 2).reads 3).1 =
          [some ⟨[0x61, 0xC3], ['a', 'Ã'], false⟩, some ⟨[0xA9, 0x62], ['©', 'b'], false⟩,
            none].map .ok := by cbv
    rw [hreads] at hanswers
    obtain rfl := List.map_injective_iff.2 (fun _ _ => Except.ok.inj) hanswers
    exact (htext hcharset).symm

end Reader

end BodyText
