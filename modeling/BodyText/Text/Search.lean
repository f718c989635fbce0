/-!
# Search

Splitting a text at a character, finding a marker in it, and measuring it in UTF-8 bytes. A
marker is written in lower case and found in either case of the ASCII letters.

A text that arrives in parts is searched part by part: what was looked through before need not be
looked through again, but for the few characters at its end that an occurrence may start with
(`Search.occurs_append`).
-/

namespace BodyText

/-! ### Splitting -/

/-- The text before and after the first `d`; `none` when there is no `d`. -/
def splitAt? (d : Char) (cs : List Char) : Option (List Char × List Char) :=
  match cs.dropWhile (· ≠ d) with
  | [] => none
  | _ :: after => some (cs.takeWhile (· ≠ d), after)

/-- `splitAt?` loses nothing but the character it splits at. -/
theorem eq_append_of_splitAt? {d : Char} {cs before after : List Char}
    (h : splitAt? d cs = some (before, after)) : cs = before ++ d :: after := by
  rw [splitAt?] at h
  split at h
  · cases h
  · rename_i c after hdrop
    cases h
    have hc := List.head?_dropWhile_not (· ≠ d) cs
    simp only [hdrop, List.head?_cons] at hc
    have hd : c = d := by simpa using hc
    have happ := List.takeWhile_append_dropWhile (p := (· ≠ d)) (l := cs)
    rw [hdrop, hd] at happ
    exact happ.symm

/-! ### Markers -/

/-- The text after `marker` when it starts with it. -/
def after? : List Char → List Char → Option (List Char)
  | [], cs => some cs
  | _ :: _, [] => none
  | m :: ms, c :: cs => if c.toLower = m then after? ms cs else none

/-- What follows a marker is no longer than the text. -/
theorem length_of_after? {marker cs rest : List Char} (h : after? marker cs = some rest) :
    cs.length = marker.length + rest.length := by
  fun_induction after? marker cs with
  | case1 cs => simp_all
  | case2 => simp at h
  | case3 ms c cs ih => simp [ih h]; omega
  | case4 => simp at h

/-- The text after the first occurrence of `marker`. -/
def past? (marker : List Char) : List Char → Option (List Char)
  | [] => after? marker []
  | c :: cs =>
    match after? marker (c :: cs) with
    | some rest => some rest
    | none => past? marker cs

theorem length_of_past? {marker cs rest : List Char} (h : past? marker cs = some rest) :
    rest.length ≤ cs.length := by
  induction cs with
  | nil => have := length_of_after? h; omega
  | cons c cs ih =>
    rw [past?] at h
    split at h
    · rename_i r hr
      have := length_of_after? hr
      simp_all
    · have := ih h
      simp
      omega

/-- What follows a text does not change whether it starts with a marker that it is long enough
for. -/
theorem after?_append {marker cs : List Char} (h : marker.length ≤ cs.length)
    (more : List Char) : after? marker (cs ++ more) = (after? marker cs).map (· ++ more) := by
  fun_induction after? marker cs with
  | case1 => simp [after?]
  | case2 => simp at h
  | case3 ms c cs ih =>
    rw [List.cons_append, after?, if_pos rfl]
    exact ih (by simpa using h)
  | case4 m ms c cs hne => rw [List.cons_append, after?, if_neg hne, Option.map_none]

/-- The last `n` characters of a text. -/
def lastChars (n : Nat) (cs : List Char) : List Char := cs.drop (cs.length - n)

/-- A marker that does not occur in a text occurs, once more is added, no earlier than its own
length less one before the end of the text. -/
theorem past?_append {marker cs : List Char} (h : past? marker cs = none) (more : List Char) :
    past? marker (cs ++ more) = past? marker (lastChars (marker.length - 1) cs ++ more) := by
  induction cs with
  | nil => simp [lastChars]
  | cons c cs ih =>
    by_cases hlen : (c :: cs).length ≤ marker.length - 1
    · rw [lastChars, Nat.sub_eq_zero_of_le hlen, List.drop_zero]
    · have hle : marker.length ≤ (c :: cs).length := by omega
      rw [past?] at h
      split at h
      · cases h
      · rename_i hnone
        have hlast :
            lastChars (marker.length - 1) (c :: cs) = lastChars (marker.length - 1) cs := by
          rw [lastChars, lastChars, List.length_cons,
            show cs.length + 1 - (marker.length - 1) = cs.length - (marker.length - 1) + 1 by
              simp only [List.length_cons] at hlen
              omega, List.drop_succ_cons]
        rw [hlast, ← ih h, List.cons_append, past?, ← List.cons_append, after?_append hle, hnone,
          Option.map_none]

/-! ### Searching part by part -/

/-- Something that may occur in a text, and in a longer text no earlier than a few characters
before where the shorter one ended. -/
structure Search where
  /-- Whether it occurs. -/
  occurs : List Char → Bool
  /-- How many characters before the end of a text it may start, when it does not occur in it. -/
  reach : Nat
  /-- What was looked through, but for its last characters, need not be looked through again. -/
  occurs_append : ∀ cs more, occurs cs = false →
    occurs (cs ++ more) = occurs (lastChars reach cs ++ more)

namespace Search

/-- The search for a character. -/
def char (d : Char) : Search where
  occurs cs := cs.contains d
  reach := 0
  occurs_append cs more h := by simp_all [lastChars]

/-- The search for a marker. -/
def marker (m : List Char) : Search where
  occurs cs := (past? m cs).isSome
  reach := m.length - 1
  occurs_append cs more h := by rw [past?_append (by simpa using h)]

end Search

/-! ### Measuring -/

/-- The length of a text in UTF-8 bytes. -/
def byteLength : List Char → Nat
  | [] => 0
  | c :: cs => c.utf8Size + byteLength cs

theorem byteLength_append (xs ys : List Char) :
    byteLength (xs ++ ys) = byteLength xs + byteLength ys := by
  induction xs with
  | nil => exact (Nat.zero_add _).symm
  | cons x xs ih => rw [List.cons_append, byteLength, byteLength, ih, Nat.add_assoc]

/-- Whether a text is longer than `n` bytes, decided without reading on. -/
def longerThan : Nat → List Char → Bool
  | _, [] => false
  | n, c :: cs => if n < c.utf8Size then true else longerThan (n - c.utf8Size) cs

theorem longerThan_iff {n : Nat} {cs : List Char} :
    longerThan n cs = true ↔ n < byteLength cs := by
  induction cs generalizing n with
  | nil => simp [longerThan, byteLength]
  | cons c cs ih =>
    rw [longerThan]
    split
    · simp [byteLength]; omega
    · rw [ih]; simp [byteLength]; omega

end BodyText
