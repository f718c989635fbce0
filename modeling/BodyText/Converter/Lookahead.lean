import BodyText.Converter.Basic
import BodyText.Known
import BodyText.Text.Search

/-!
# Reading ahead

Where the text at hand does not settle what comes next, a converter reads on: inside a tag or a
block, and behind a `&`. `readUntil` asks after every line whether the text at hand is enough.
`search` reads on until something occurs in the text, and looks through each line only once; it
comes to the same (`search_eq_readUntil`).
-/

namespace BodyText

namespace Converter

/-! ### Line by line -/

/-- Reads on until the text at hand is enough, or the input is at its end; answers which. -/
def readUntil (enough : List Char → Bool) (c : Converter) : Except ReadError Bool × Converter :=
  if enough c.unread then (.ok true, c)
  else
    match known c.refill with
    | ⟨(.error e, c'), _⟩ => (.error e, c')
    | ⟨(.ok false, c'), _⟩ => (.ok false, c')
    | ⟨(.ok true, c'), _⟩ => readUntil enough c'
termination_by c.reader.remaining
decreasing_by exact remaining_of_refill ‹_›

/-- What reading on comes to, by what one line more comes to. -/
theorem readUntil_eq (enough : List Char → Bool) (c : Converter) :
    c.readUntil enough =
      if enough c.unread then (.ok true, c)
      else
        match c.refill with
        | (.error e, c') => (.error e, c')
        | (.ok false, c') => (.ok false, c')
        | (.ok true, c') => c'.readUntil enough := by
  rw [readUntil]
  split
  · rfl
  · split <;> rename_i hd _ <;> rw [hd]

theorem follows_of_readUntil {enough : List Char → Bool} {c c' : Converter} {b : Bool}
    (h : c.readUntil enough = (.ok b, c')) : Follows c' c := by
  fun_induction readUntil enough c with
  | case1 =>
    cases h
    exact Follows.refl _
  | case2 => cases h
  | case3 c _ d hd =>
    cases h
    exact follows_of_refill hd
  | case4 c _ d hd _ ih =>
    have hlt := remaining_of_refill hd
    rcases ih h with hlt' | ⟨heq, -⟩
    · exact .inl (by omega)
    · exact .inl (by omega)

/-- The answer is whether the text that is then at hand is enough. -/
theorem enough_of_readUntil {enough : List Char → Bool} {c c' : Converter} {b : Bool}
    (h : c.readUntil enough = (.ok b, c')) : enough c'.unread = b := by
  fun_induction readUntil enough c with
  | case1 c hc =>
    cases h
    exact hc
  | case2 => cases h
  | case3 c hc d hd =>
    cases h
    rw [unread_of_refill hd nofun]
    simpa using hc
  | case4 c _ d hd _ ih => exact ih h

/-! ### Part by part -/

/-- A text that was put aside in parts, the last part first, with the text after it. -/
def rejoin (parts : List (List Char)) (cs : List Char) : List Char :=
  parts.foldl (fun text part => part ++ text) cs

theorem rejoin_cons (part : List Char) (parts : List (List Char)) (cs : List Char) :
    rejoin (part :: parts) cs = rejoin parts (part ++ cs) :=
  rfl

theorem rejoin_append (parts : List (List Char)) (cs more : List Char) :
    rejoin parts (cs ++ more) = rejoin parts cs ++ more := by
  induction parts generalizing cs with
  | nil => rfl
  | cons part parts ih =>
    rw [rejoin_cons, rejoin_cons, ← List.append_assoc, ih]

/-- Reads on until `s` occurs in the text, or the input is at its end. The `parts` of the text were
looked through before, and `tail` is what of their end an occurrence may start with. -/
def searchFrom (s : Search) (parts : List (List Char)) (tail : List Char) (c : Converter) :
    Except ReadError Bool × Converter :=
  if s.occurs (tail ++ c.unread) then (.ok true, c.withUnread (rejoin parts c.unread))
  else
    match known (c.withUnread []).refill with
    | ⟨(.error e, c'), _⟩ => (.error e, c'.withUnread (rejoin parts c.unread))
    | ⟨(.ok false, c'), _⟩ => (.ok false, c'.withUnread (rejoin parts c.unread))
    | ⟨(.ok true, c'), _⟩ =>
      searchFrom s (c.unread :: parts) (lastChars s.reach (tail ++ c.unread)) c'
termination_by c.reader.remaining
decreasing_by exact (remaining_of_refill ‹(c.withUnread []).refill = _› :)

/-- Reads on until `s` occurs in the text at hand, or the input is at its end; answers which. -/
def search (s : Search) (c : Converter) : Except ReadError Bool × Converter :=
  c.searchFrom s [] []

/-- Searching part by part is reading on until the text is enough, when what is put aside as the
tail is as good as all of the parts. -/
theorem searchFrom_eq_readUntil (s : Search) (parts : List (List Char)) (tail : List Char)
    (c : Converter)
    (h : ∀ cs, s.occurs (tail ++ cs) = s.occurs (rejoin parts cs)) :
    c.searchFrom s parts tail = (c.withUnread (rejoin parts c.unread)).readUntil s.occurs := by
  fun_induction searchFrom s parts tail c with
  | case1 parts tail c hocc =>
    rw [h] at hocc
    rw [readUntil_eq]
    exact (if_pos hocc).symm
  | case2 parts tail c hocc e d hd =>
    rw [h] at hocc
    have hu := unread_of_refill hd (by simp)
    rw [readUntil_eq, if_neg (by exact hocc), refill_withUnread, hd, hu]
    simp [withUnread]
  | case3 parts tail c hocc d hd =>
    rw [h] at hocc
    have hu := unread_of_refill hd (by simp)
    rw [readUntil_eq, if_neg (by exact hocc), refill_withUnread, hd, hu]
    simp [withUnread]
  | case4 parts tail c hocc d hd _ ih =>
    have hnone := hocc
    rw [h] at hocc
    rw [readUntil_eq, if_neg (by exact hocc), refill_withUnread, hd, ih fun cs => ?_]
    · rw [rejoin_cons, rejoin_append]
    · rw [← s.occurs_append _ _ (by simpa using hnone), List.append_assoc, h, rejoin_cons]

/-- Searching is reading on until the text is enough. -/
theorem search_eq_readUntil (s : Search) (c : Converter) :
    c.search s = c.readUntil s.occurs :=
  c.searchFrom_eq_readUntil s [] [] fun _ => rfl

theorem follows_of_search {s : Search} {c c' : Converter} {b : Bool}
    (h : c.search s = (.ok b, c')) : Follows c' c :=
  follows_of_readUntil (search_eq_readUntil s c ▸ h)

end Converter

end BodyText
