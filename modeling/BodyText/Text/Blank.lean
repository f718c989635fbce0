/-!
# Blanks

Two sets of white space, and the trimming that goes with them. Inside a tag only the five ASCII
blanks separate words; charset labels and attribute names are trimmed by the larger Unicode set.
-/

namespace BodyText

/-- The ASCII blanks: TAB, LF, FF, CR and SPACE. -/
def isBlank (c : Char) : Bool :=
  c = '\t' || c = '\n' || c = '\x0c' || c = '\r' || c = ' '

/-- The code points of the Unicode property `White_Space`, as first and last of each range. -/
def spaceRanges : List (Nat × Nat) :=
  [(0x09, 0x0D), (0x20, 0x20), (0x85, 0x85), (0xA0, 0xA0), (0x1680, 0x1680), (0x2000, 0x200A),
   (0x2028, 0x2029), (0x202F, 0x202F), (0x205F, 0x205F), (0x3000, 0x3000)]

/-- A character with the Unicode property `White_Space`. -/
def isSpace (c : Char) : Bool :=
  spaceRanges.any fun r => r.1 ≤ c.toNat && c.toNat ≤ r.2

/-- The text without the characters at its end that satisfy `p`. -/
def trimEndBy (p : Char → Bool) (cs : List Char) : List Char :=
  (cs.reverse.dropWhile p).reverse

/-- The text without the characters at either end that satisfy `p`. -/
def trimBy (p : Char → Bool) (cs : List Char) : List Char :=
  trimEndBy p (cs.dropWhile p)

/-- A text that neither starts nor ends with such a character is trimmed already. -/
theorem trimBy_eq_self {p : Char → Bool} {first last : Char} {cs : List Char}
    (hfirst : p first = false) (hlast : p last = false) :
    trimBy p (first :: (cs ++ [last])) = first :: (cs ++ [last]) := by
  rw [trimBy, List.dropWhile_cons_of_neg (by simp [hfirst]), trimEndBy, ← List.cons_append,
    List.reverse_append, List.reverse_singleton, List.singleton_append,
    List.dropWhile_cons_of_neg (by simp [hlast]), List.reverse_cons, List.reverse_reverse]

end BodyText
