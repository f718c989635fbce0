import BodyText.Known
import BodyText.Input.Reader

/-!
# The lines of a body

A stream is steady when it neither fails nor pauses; for what is read from it, pauses behind its
last byte make no difference (`Stream.Unbroken`). What a reader makes of such a stream is told by
its bytes alone: the lines are those into which the bytes are cut one after the other
(`Charset.linesOf`), and each read gives the next of them (`Reader.pull_of_steady`).
-/

namespace BodyText

/-! ### Line heads -/

theorem lineHead_eq_nil_iff {room : Nat} (hroom : 0 < room) {bytes : List UInt8} :
    lineHead room bytes = [] ↔ bytes = [] := by
  obtain ⟨room, rfl⟩ := Nat.exists_eq_add_one.2 hroom
  cases bytes with
  | nil => simp [lineHead]
  | cons b bs =>
    rw [lineHead]
    split <;> simp

/-- A line ends before the end of the input only at a line end or where there is no room. -/
theorem lineHead_append (room : Nat) (xs ys : List UInt8) :
    lineHead room (xs ++ ys) =
      if (lineHead room xs).length = room ∨ (lineHead room xs).getLast? = some lineEnd then
        lineHead room xs
      else xs ++ lineHead (room - xs.length) ys := by
  induction xs generalizing room with
  | nil =>
    cases room with
    | zero => simp [lineHead]
    | succ room => simp [lineHead]
  | cons b bs ih =>
    cases room with
    | zero => simp [lineHead]
    | succ room =>
      rw [List.cons_append, lineHead, lineHead]
      by_cases hb : b = lineEnd
      · simp [hb]
      · have hlast : (b :: lineHead room bs).getLast? = some lineEnd ↔
            (lineHead room bs).getLast? = some lineEnd := by
          cases lineHead room bs with
          | nil => simp [hb]
          | cons => simp
        simp only [if_neg hb, ih, List.length_cons, Nat.add_right_cancel_iff, hlast,
          Nat.add_sub_add_right]
        split <;> rfl

/-- Bytes without a line end among them are all part of the line. -/
theorem lineHead_append_of_not_mem {room : Nat} {xs : List UInt8} (hlen : xs.length ≤ room)
    (hxs : lineEnd ∉ xs) (ys : List UInt8) :
    lineHead room (xs ++ ys) = xs ++ lineHead (room - xs.length) ys := by
  induction xs generalizing room with
  | nil => rfl
  | cons b bs ih =>
    rw [List.mem_cons, not_or] at hxs
    obtain ⟨hb, hbs⟩ := hxs
    rw [List.length_cons] at hlen
    obtain ⟨room, rfl⟩ := Nat.exists_eq_add_one.2 (Nat.zero_lt_of_lt hlen)
    rw [List.cons_append, lineHead, if_neg (Ne.symm hb), ih (by omega) hbs, List.length_cons,
      Nat.add_sub_add_right]
    rfl

/-- A line end stands nowhere but at the end of a line. -/
theorem not_mem_lineHead {room : Nat} {bytes : List UInt8}
    (h : (lineHead room bytes).getLast? ≠ some lineEnd) : lineEnd ∉ lineHead room bytes := by
  fun_induction lineHead room bytes with
  | case1 => exact List.not_mem_nil
  | case2 => exact List.not_mem_nil
  | case3 => exact absurd rfl h
  | case4 room b bs hb ih =>
    rw [List.mem_cons, not_or]
    refine ⟨Ne.symm hb, ih fun hlast => h ?_⟩
    rw [List.getLast?_cons, hlast]
    rfl

/-- The line end of a line is the last of its bytes. -/
theorem eq_nil_of_lineHead {room : Nat} {bytes before after : List UInt8}
    (h : lineHead room bytes = before ++ lineEnd :: after) : after = [] := by
  fun_induction lineHead room bytes generalizing before with
  | case1 => simp at h
  | case2 => simp at h
  | case3 =>
    have hlen := congrArg List.length h
    simp only [List.length_append, List.length_cons, List.length_nil] at hlen
    exact List.length_eq_zero_iff.1 (by omega)
  | case4 room b bs hb ih =>
    cases before with
    | nil => exact absurd (List.cons.inj h).1 hb
    | cons b' before => exact ih (List.cons.inj h).2

/-! ### Taking a line -/

/-- A feed that neither fails nor pauses. -/
def Feed.isSteady : Feed → Bool
  | .segment _ | .interrupted => true
  | .failure _ | .pause => false

namespace Stream

/-- A stream that neither fails nor pauses. -/
def Steady (s : Stream) : Prop := ∀ f ∈ s, f.isSteady = true

theorem steady_segment (bytes : List UInt8) : Steady [.segment bytes] := by
  intro f hf
  rw [List.mem_singleton.1 hf]
  rfl

/-- A stream that does not fail, and does not pause before its last byte. -/
def Unbroken : Stream → Prop
  | [] => True
  | .segment _ :: s | .interrupted :: s => Unbroken s
  | .failure _ :: _ => False
  | .pause :: s => bytes s = [] ∧ Unbroken s

theorem Steady.unbroken {s : Stream} (h : s.Steady) : s.Unbroken := by
  induction s with
  | nil => trivial
  | cons f s ih =>
    have hs := ih fun g hg => h g (List.mem_cons_of_mem f hg)
    cases f with
    | segment bs => exact hs
    | interrupted => exact hs
    | failure cause => exact absurd (h _ List.mem_cons_self) Bool.false_ne_true
    | pause => exact absurd (h _ List.mem_cons_self) Bool.false_ne_true

theorem Unbroken.putBack {s : Stream} (h : s.Unbroken) (bs : List UInt8) :
    (putBack bs s).Unbroken := by
  cases bs with
  | nil => exact h
  | cons b bs => exact h

/-- A line has no more bytes than there is room for. -/
theorem length_takeLine_le {room : Nat} {s s' : Stream} {taken : List UInt8}
    (h : s.takeLine room = (.ok taken, s')) : taken.length ≤ room := by
  fun_induction takeLine room s generalizing taken s' with
  | case1 => simp_all
  | case2 => simp_all
  | case3 room s ih => exact ih h
  | case4 => cases h
  | case5 room bs s =>
    cases h
    exact length_lineHead_le _ _
  | case6 room bs s head hgo more rest hrest =>
    rename_i ih
    cases h
    have hmore := ih hrest
    have hhead : head.length ≤ room := length_lineHead_le room bs
    rw [List.length_append]
    omega
  | case7 => cases h

/-- The line that is taken from an unbroken stream is the first one of its bytes. -/
theorem takeLine_of_unbroken {room : Nat} (hroom : 0 < room) {s : Stream} (h : s.Unbroken) :
    ∃ s', s.takeLine room = (.ok (lineHead room s.bytes), s') ∧ s'.Unbroken := by
  induction s generalizing room with
  | nil =>
    refine ⟨[], ?_, h⟩
    rw [takeLine, bytes, (lineHead_eq_nil_iff hroom).2 rfl]
  | cons f s ih =>
    cases f with
    | segment bs =>
      have hs : Unbroken s := h
      rw [takeLine, bytes, lineHead_append]
      by_cases hstop : (lineHead room bs).length = room ∨
          (lineHead room bs).getLast? = some lineEnd
      · simp only [if_pos hstop]
        exact ⟨_, rfl, hs.putBack _⟩
      · have hall : lineHead room bs = bs := lineHead_eq_self hstop
        simp only [if_neg hstop]
        rw [hall] at hstop ⊢
        have hlen := length_lineHead_le room bs
        rw [hall] at hlen
        have hne := (not_or.1 hstop).1
        have hmore : 0 < room - bs.length := by omega
        obtain ⟨s', htake, hs'⟩ := ih hmore hs
        rw [htake]
        exact ⟨s', rfl, hs'⟩
    | interrupted => exact ih hroom h
    | failure cause => exact absurd h not_false
    | pause =>
      -- behind a pause there is nothing more to take
      obtain ⟨hbytes, hs⟩ := h
      exact ⟨s, by rw [takeLine, bytes, hbytes, (lineHead_eq_nil_iff hroom).2 rfl], hs⟩

end Stream

/-! ### The lines of some bytes -/

namespace Charset

/-- The line that is made of some bytes, where a line has `limit` bytes at most. -/
def lineOf (charset : Charset) (limit : Nat) (raw : List UInt8) : Line :=
  charset.decodeLine (raw.length = limit && raw.getLast? ≠ some lineEnd) raw

/-- The lines into which bytes are cut, where a line has `limit` bytes at most. -/
def linesOf (charset : Charset) (limit : Nat) (bytes : List UInt8) : List Line :=
  match known (lineHead limit bytes) with
  | ⟨[], _⟩ => []
  | ⟨b :: bs, _⟩ =>
    let line := charset.lineOf limit (b :: bs)
    line :: linesOf charset limit (bytes.drop line.bytes.length)
termination_by bytes.length
decreasing_by
  have hhead : lineHead limit bytes = b :: bs := ‹_›
  have hline := List.length_pos_iff.2 (charset.decodeLine_bytes
    ((b :: bs).length = limit && (b :: bs).getLast? ≠ some lineEnd) (List.cons_ne_nil b bs)).1
  have hbytes : 0 < bytes.length := by
    cases bytes with
    | nil => cases limit <;> cases hhead
    | cons => exact Nat.succ_pos _
  rw [List.length_drop]
  exact Nat.sub_lt hbytes hline

variable (charset : Charset) {limit : Nat}

@[simp] theorem linesOf_nil : charset.linesOf limit [] = [] := by
  have h : lineHead limit [] = [] := by
    cases limit <;> rfl
  rw [linesOf]
  split
  · rfl
  · rename_i hd _
    rw [h] at hd
    cases hd

/-- The first line is made of the first bytes, and what it does not hold is left for the others. -/
theorem linesOf_eq_cons (hlimit : 0 < limit) {bytes : List UInt8} (h : bytes ≠ []) :
    charset.linesOf limit bytes =
      charset.lineOf limit (lineHead limit bytes) ::
        charset.linesOf limit
          (bytes.drop (charset.lineOf limit (lineHead limit bytes)).bytes.length) := by
  have hne : lineHead limit bytes ≠ [] := fun hnil => h ((lineHead_eq_nil_iff hlimit).1 hnil)
  rw [linesOf]
  split
  · rename_i hd _
    exact absurd hd hne
  · rename_i hd _
    rw [hd]

/-- Bytes that the limit cut off may hold some of them back. -/
theorem lineOf_of_cut {raw : List UInt8} (hlen : raw.length = limit)
    (hlast : raw.getLast? ≠ some lineEnd) :
    charset.lineOf limit raw = charset.decodeLine true raw := by
  simp [lineOf, hlen, hlast]

/-- Bytes that end at a line end, or within the limit, hold nothing back. -/
theorem lineOf_of_not_cut {raw : List UInt8}
    (h : raw.length ≠ limit ∨ raw.getLast? = some lineEnd) :
    charset.lineOf limit raw = charset.decodeLine false raw := by
  rcases h with hlen | hlast
  · simp [lineOf, hlen]
  · simp [lineOf, hlast]

theorem length_lineOf_le (limit : Nat) {raw : List UInt8} (h : raw ≠ []) :
    (charset.lineOf limit raw).bytes.length ≤ raw.length := by
  have hsplit := (charset.decodeLine_bytes
    (raw.length = limit && raw.getLast? ≠ some lineEnd) h).2
  have hlen := congrArg List.length hsplit
  rw [List.length_append] at hlen
  exact Nat.le.intro hlen

/-- A line that is not cut off holds all of its bytes. -/
theorem bytes_decodeLine (raw : List UInt8) : (charset.decodeLine false raw).bytes = raw := by
  rw [decodeLine]
  generalize hf : List.findSome? (charset.decodeHolding? raw) _ = found
  cases found with
  | none => rfl
  | some line =>
    obtain ⟨held, hmem, hline⟩ := List.exists_of_findSome?_eq_some hf
    simp only [Bool.false_eq_true, if_false, List.mem_singleton] at hmem
    subst hmem
    simpa using (decodeHolding?_bytes hline).2

/-- What a line leaves of its bytes holds no line end. -/
theorem not_mem_drop_lineOf (bytes : List UInt8) :
    lineEnd ∉ (lineHead limit bytes).drop
      (charset.lineOf limit (lineHead limit bytes)).bytes.length := by
  intro hmem
  by_cases hlast : (lineHead limit bytes).getLast? = some lineEnd
  · have hall : (charset.lineOf limit (lineHead limit bytes)).bytes = lineHead limit bytes := by
      rw [lineOf_of_not_cut charset (.inr hlast), bytes_decodeLine]
    rw [hall, List.drop_length] at hmem
    exact absurd hmem List.not_mem_nil
  · exact not_mem_lineHead hlast (List.mem_of_mem_drop hmem)

end Charset

/-! ### Reading the lines -/

namespace Reader

/-- There is room for a byte more than those held back. -/
def Roomy (r : Reader) : Prop := r.carry.length < r.limit

theorem roomy_start (stream : Stream) (charset : Charset) (limit : Nat) :
    (start stream charset limit).Roomy := by
  simp only [Roomy, start, List.length_nil]
  omega

theorem roomy_of_settle {r : Reader} {raw : List UInt8} (hpos : 0 < r.limit)
    (h : raw.length ≤ r.limit) : (r.settle raw).2.Roomy := by
  unfold settle
  split
  · exact hpos
  · rename_i hne
    have hraw : raw ≠ [] := by simpa using hne
    obtain ⟨hbytes, -⟩ := r.charset.decodeLine_bytes (r.isCut raw) hraw
    have := List.length_pos_iff.2 hbytes
    have := List.length_pos_iff.2 hraw
    simp only [Roomy, List.length_drop]
    omega

/-- A line that is read leaves room. -/
theorem roomy_of_pull {r : Reader} (h : r.Roomy) : r.pull.2.Roomy := by
  have hpos : 0 < r.limit := Nat.zero_lt_of_lt h
  unfold pull
  split
  · exact hpos
  · rename_i taken s htake
    have hlen := Stream.length_takeLine_le htake
    have hraw : (r.carry ++ taken).length ≤ r.limit := by
      rw [List.length_append]
      unfold Roomy at h
      omega
    exact roomy_of_settle hpos hraw

/-- The bytes that are still to be decoded. -/
def pending (r : Reader) : List UInt8 := r.carry ++ r.stream.bytes

/-- The lines that are still to be read, when the stream is unbroken. -/
def lines (r : Reader) : List Line := r.charset.linesOf r.limit r.pending

/-- A reader of an unbroken stream, between two lines. -/
structure Steady (r : Reader) : Prop where
  /-- The stream does not fail, and does not pause before its last byte. -/
  stream : r.stream.Unbroken
  /-- There is room for a byte more than those held back. -/
  roomy : r.Roomy
  /-- No line end is held back. -/
  carry : lineEnd ∉ r.carry

theorem steady_start {stream : Stream} (h : stream.Unbroken) (charset : Charset) (limit : Nat) :
    (start stream charset limit).Steady :=
  ⟨h, roomy_start stream charset limit, List.not_mem_nil⟩

@[simp] theorem lines_start (stream : Stream) (charset : Charset) (limit : Nat) :
    (start stream charset limit).lines = charset.linesOf (max limit 1) stream.bytes :=
  rfl

theorem settle_nil (r : Reader) : r.settle [] = (none, { r with carry := [] }) := rfl

theorem settle_of_ne_nil (r : Reader) {raw : List UInt8} (h : raw ≠ []) :
    r.settle raw =
      (some (r.charset.lineOf r.limit raw),
        { r with
          carry := raw.drop (r.charset.lineOf r.limit raw).bytes.length
          lineNumber := r.lineNumber + 1 }) := by
  rw [settle, if_neg (by simpa using h)]
  rfl

/-- What one read of an unbroken stream comes to: the next line, or the end when there is none. -/
theorem pull_of_steady {r : Reader} (h : r.Steady) :
    (r.lines = [] ∧ ∃ r', r.pull = (.ok none, r') ∧ r'.Steady ∧ r'.lines = []) ∨
      ∃ line later r', r.lines = line :: later ∧ r.pull = (.ok (some line), r') ∧ r'.Steady ∧
        r'.lines = later := by
  have hlt : r.carry.length < r.limit := h.roomy
  have hpos : 0 < r.limit := Nat.zero_lt_of_lt hlt
  obtain ⟨s, htake, hs⟩ := Stream.takeLine_of_unbroken (Nat.sub_pos_of_lt hlt) h.stream
  have hbytes := Stream.takeLine_bytes htake
  -- the bytes of the line are the first ones of all that are pending
  have hraw : r.carry ++ lineHead (r.limit - r.carry.length) r.stream.bytes =
      lineHead r.limit r.pending :=
    (lineHead_append_of_not_mem (Nat.le_of_lt hlt) h.carry _).symm
  have hpending : r.pending = lineHead r.limit r.pending ++ s.bytes := by
    rw [← hraw, List.append_assoc, ← hbytes, pending]
  have hpull : r.pull =
      (.ok ({ r with stream := s }.settle (lineHead r.limit r.pending)).1,
        ({ r with stream := s }.settle (lineHead r.limit r.pending)).2) := by
    rw [pull, htake]
    simp only [hraw]
  have hroomy := roomy_of_pull h.roomy
  by_cases hnil : r.pending = []
  · left
    have hhead : lineHead r.limit r.pending = [] := (lineHead_eq_nil_iff hpos).2 hnil
    rw [hhead, settle_nil] at hpull
    rw [hpull] at hroomy
    have hs_nil : s.bytes = [] := by rw [← hnil, hpending, hhead, List.nil_append]
    refine ⟨?_, _, hpull, ⟨hs, hroomy, List.not_mem_nil⟩, ?_⟩
    · rw [lines, hnil, Charset.linesOf_nil]
    · simp only [lines, pending, List.nil_append, hs_nil, Charset.linesOf_nil]
  · right
    have hhead : lineHead r.limit r.pending ≠ [] :=
      fun hhead => hnil ((lineHead_eq_nil_iff hpos).1 hhead)
    rw [settle_of_ne_nil _ hhead] at hpull
    rw [hpull] at hroomy
    refine ⟨_, _, _, Charset.linesOf_eq_cons r.charset hpos hnil, hpull,
      ⟨hs, hroomy, Charset.not_mem_drop_lineOf _ _⟩, ?_⟩
    -- what the line does not hold stands before what the stream still brings
    apply congrArg (r.charset.linesOf r.limit)
    calc
      _ = ((lineHead r.limit r.pending) ++ s.bytes).drop _ :=
        (List.drop_append_of_le_length (Charset.length_lineOf_le _ _ hhead)).symm
      _ = r.pending.drop _ := by rw [← hpending]

end Reader

end BodyText
