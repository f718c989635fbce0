/-!
# Input streams

A body arrives in segments. Between them a read may be interrupted, which is tried again; fail,
which ends the reading of the line at hand; or pause, which looks like the end of the input once.
A line is taken from a stream through its first line end, or until it has a given number of
bytes. Taking a line loses no byte (`takeLine_bytes`).
-/

namespace BodyText

/-- The input could not be read. -/
structure ReadError where
  /-- What the input said about it. -/
  cause : String
  deriving DecidableEq, Repr

/-- What a person is told about a read that failed. -/
def ReadError.message (e : ReadError) : String := "read error: " ++ e.cause

/-- One thing that an input does. -/
inductive Feed where
  /-- Some bytes arrive. -/
  | segment (bytes : List UInt8)
  /-- A read is interrupted, to be tried again. -/
  | interrupted
  /-- A read fails. -/
  | failure (cause : String)
  /-- The input seems to end, once. -/
  | pause
  deriving DecidableEq, Repr

/-- What an input will do; after the last of it the input is at its end. -/
abbrev Stream := List Feed

/-- The byte that ends a line. -/
def lineEnd : UInt8 := 0x0A

/-- The bytes through the first line end, `room` of them at most. -/
def lineHead : Nat → List UInt8 → List UInt8
  | 0, _ | _, [] => []
  | room + 1, b :: bs => if b = lineEnd then [b] else b :: lineHead room bs

theorem lineHead_append_drop (room : Nat) (bytes : List UInt8) :
    lineHead room bytes ++ bytes.drop (lineHead room bytes).length = bytes := by
  fun_induction lineHead room bytes <;> simp_all

theorem length_lineHead_le (room : Nat) (bytes : List UInt8) :
    (lineHead room bytes).length ≤ room := by
  fun_induction lineHead room bytes <;> simp_all

/-- A line's bytes stop before the segment does only at the room's end or at a line end. -/
theorem lineHead_eq_self {room : Nat} {bytes : List UInt8}
    (h : ¬ ((lineHead room bytes).length = room ∨ (lineHead room bytes).getLast? = some lineEnd)) :
    lineHead room bytes = bytes := by
  fun_induction lineHead room bytes with
  | case1 => simp at h
  | case2 => rfl
  | case3 => simp at h
  | case4 room b bs hb ih =>
    rw [ih]
    rintro (hlen | hlast)
    · exact h (.inl (by rw [List.length_cons, hlen]))
    · exact h (.inr (by rw [List.getLast?_cons, hlast]; rfl))

namespace Stream

/-- The bytes that are still to come. -/
def bytes : Stream → List UInt8
  | [] => []
  | .segment bs :: s => bs ++ bytes s
  | .interrupted :: s | .failure _ :: s | .pause :: s => bytes s

/-- A stream with some bytes before it. -/
def putBack (bs : List UInt8) (s : Stream) : Stream :=
  if bs.isEmpty then s else .segment bs :: s

@[simp] theorem bytes_putBack (bs : List UInt8) (s : Stream) :
    (putBack bs s).bytes = bs ++ s.bytes := by
  cases bs <;> simp [putBack, bytes]

/-- The rest of a line, `room` bytes at most, and the stream after it. No bytes mean that the
input is at its end, for now or for good. -/
def takeLine (room : Nat) : Stream → Except ReadError (List UInt8) × Stream
  | [] => (.ok [], [])
  | .pause :: s => (.ok [], s)
  | .interrupted :: s => takeLine room s
  | .failure cause :: s => (.error ⟨cause⟩, s)
  | .segment bs :: s =>
    let taken := lineHead room bs
    if taken.length = room ∨ taken.getLast? = some lineEnd then
      (.ok taken, putBack (bs.drop taken.length) s)
    else
      match takeLine (room - taken.length) s with
      | (.ok more, s') => (.ok (taken ++ more), s')
      | (.error e, s') => (.error e, s')

theorem takeLine_bytes {room : Nat} {s s' : Stream} {taken : List UInt8}
    (h : s.takeLine room = (.ok taken, s')) : s.bytes = taken ++ s'.bytes := by
  fun_induction takeLine room s generalizing taken s' with
  | case1 => simp_all [bytes]
  | case2 => simp_all [bytes]
  | case3 _ _ ih => simp [bytes, ih h]
  | case4 => simp at h
  | case5 =>
    simp only [Prod.mk.injEq, Except.ok.injEq] at h
    obtain ⟨rfl, rfl⟩ := h
    rw [bytes, bytes_putBack, ← List.append_assoc, lineHead_append_drop]
  | case6 =>
    rename_i room bs s head hgo more rest hrest ih
    simp only [Prod.mk.injEq, Except.ok.injEq] at h
    obtain ⟨rfl, rfl⟩ := h
    have hall : head = bs := lineHead_eq_self hgo
    rw [bytes, ih hrest, hall, List.append_assoc]
  | case7 => simp at h

end Stream

end BodyText
