import BodyText.Text.Search

/-!
# Character references

A reference is written `&name;` or `&#number;`. Its `;` lies within eight bytes of the `&`, so
eight bytes of a line always settle whether a `&` starts a reference or stands for itself. A
reference becomes plain text: its character where that is ASCII, or Latin-1 in a Latin-1 body,
and an approximation in ASCII otherwise.
-/

namespace BodyText

namespace Reference

/-! ### Where a reference ends -/

/-- How many bytes a reference has at most, `&` and `;` included. -/
def maxBytes : Nat := 8

/-- Whether a text that starts with `&` settles if it starts with a reference, whatever may be read
after it: it is long enough, or its line is over, or a `;` is there. -/
def settled (cs : List Char) : Bool :=
  longerThan (maxBytes - 1) cs || cs.getLast? = some '\n' || cs.contains ';'

/-- The text through the first `;`, when that lies within `room` bytes, and the text after it. -/
def tokenWithin? : Nat → List Char → Option (List Char × List Char)
  | _, [] => none
  | room, c :: cs =>
    if room < c.utf8Size then none
    else if c = ';' then some ([c], cs)
    else (tokenWithin? (room - c.utf8Size) cs).map fun parts => (c :: parts.1, parts.2)

/-- The reference at the start of a text, and the text after it. -/
def token? (cs : List Char) : Option (List Char × List Char) := tokenWithin? maxBytes cs

theorem eq_append_of_tokenWithin? {room : Nat} {cs token rest : List Char}
    (h : tokenWithin? room cs = some (token, rest)) : token ≠ [] ∧ cs = token ++ rest := by
  induction cs generalizing room token rest with
  | nil => simp [tokenWithin?] at h
  | cons c cs ih =>
    rw [tokenWithin?] at h
    split at h
    · cases h
    · split at h
      · cases h
        simp
      · obtain ⟨⟨t, r⟩, ht, hp⟩ := Option.map_eq_some_iff.1 h
        cases hp
        simp [(ih ht).2]

/-! ### What a reference becomes -/

/-- References to signs, and what they become. -/
def signs : List (String × String) :=
  [("&lt;", "<"), ("&gt;", ">"), ("&amp;", "&"), ("&quot;", "\""), ("&lsquo;", "'"),
   ("&rsquo;", "'"), ("&ldquo;", "\""), ("&rdquo;", "\""), ("&nbsp;", " "), ("&trade;", "(TM)"),
   ("&#153;", "(TM)"), ("&hellip;", "...")]

/-- References to Latin-1 signs and letters, and how ASCII spells them. -/
def spellings : List (String × String) :=
  [("&iexcl;", "^!"), ("&brvbar;", "|"), ("&copy;", "(C)"), ("&laquo;", "<<"), ("&reg;", "(R)"),
   ("&sup2;", "^2"), ("&sup3;", "^3"), ("&acute;", "'"), ("&cedil;", ","), ("&sup1;", "^1"),
   ("&raquo;", ">>"), ("&frac14;", "1/4"), ("&frac12;", "1/2"), ("&frac34;", "3/4"),
   ("&iquest;", "^?"), ("&Agrave;", "A`"), ("&Aacute;", "A'"), ("&Acirc;", "A^"),
   ("&Atilde;", "A~"), ("&AElig;", "AE"), ("&Egrave;", "E`"), ("&Eacute;", "E'"),
   ("&Ecirc;", "E^"), ("&Igrave;", "I`"), ("&Iacute;", "I'"), ("&Icirc;", "I^"),
   ("&Ntilde;", "N~"), ("&Ograve;", "O`"), ("&Oacute;", "O'"), ("&Ocirc;", "O^"),
   ("&Otilde;", "O~"), ("&Ugrave;", "U`"), ("&Uacute;", "U'"), ("&Ucirc;", "U^"),
   ("&Yacute;", "Y'"), ("&agrave;", "a`"), ("&aacute;", "a'"), ("&acirc;", "a^"),
   ("&atilde;", "a~"), ("&aelig;", "ae"), ("&egrave;", "e`"), ("&eacute;", "e'"),
   ("&ecirc;", "e^"), ("&igrave;", "i`"), ("&iacute;", "i'"), ("&icirc;", "i^"),
   ("&ntilde;", "n~"), ("&ograve;", "o`"), ("&oacute;", "o'"), ("&ocirc;", "o^"),
   ("&otilde;", "o~"), ("&ugrave;", "u`"), ("&uacute;", "u'"), ("&ucirc;", "u^"),
   ("&yacute;", "y'")]

/-- Code points past Latin-1, and how ASCII spells them. -/
def approximations : List (Nat × String) :=
  [(338, "OE"), (339, "oe"), (710, "^"), (732, "~"), (8194, " "), (8195, " "), (8201, " "),
   (8211, "-"), (8212, "--"), (8216, "'"), (8217, "'"), (8218, ","), (8220, "\""), (8221, "\""),
   (8222, ",,"), (8230, "..."), (8240, "%o"), (8249, "<"), (8250, ">"), (8364, "EUR"),
   (8482, "(TM)")]

/-- The text of a reference by name. -/
def named? (token : String) : Option String := (signs ++ spellings).lookup token

/-- The spelling of a code point. -/
def approximation? (code : Nat) : Option String := approximations.lookup code

/-- The greatest number that a reference can have; a greater one counts as this. -/
def maxNumber : Nat := UInt32.size - 1

/-- The number with one more digit, kept within the greatest number after either operation. -/
def addDigit (number : Nat) (digit : Char) : Nat :=
  min (min (number * 10) maxNumber + (digit.toNat - '0'.toNat)) maxNumber

/-- The number of a reference: the decimal digits behind `&#`, whatever follows them. -/
def number? (token : List Char) : Option Nat :=
  match token with
  | '&' :: '#' :: cs =>
    if (cs.takeWhile Char.isDigit).isEmpty then none
    else some ((cs.takeWhile Char.isDigit).foldl addDigit 0)
  | _ => none

/-- Whether the character of a number is written as itself. -/
def isDirect (latin1 : Bool) (code : Nat) : Bool :=
  1 ≤ code && code ≤ 127 || 128 ≤ code && code ≤ 255 && latin1

/-- The text of a numeric reference. -/
def ofNumber? (latin1 : Bool) (code : Nat) : Option String :=
  if isDirect latin1 code then some (String.singleton (Char.ofNat code)) else approximation? code

/-- The text that a reference becomes; `none` when it becomes none. -/
def resolve? (latin1 : Bool) (token : List Char) : Option String :=
  (named? (String.ofList token)).or ((number? token).bind (ofNumber? latin1))

end Reference

end BodyText
