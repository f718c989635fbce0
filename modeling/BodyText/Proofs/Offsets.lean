import BodyText.Proofs.Marks
import BodyText.Proofs.Utf8

/-!
# Offsets in bytes

A place in a text may be told by the number of bytes before it, in UTF-8. Not every number tells one: it
may be past the end, or within a character (`cutAt?`). Bytes below 0x80 are characters of their own and
occur in no other character, so what is made of them is found among the bytes of a text where it stands
among its characters: the end of a run of such bytes (`Utf8.takeWhile_encode`), and the first occurrence of
a marker (`Bytes.indexOf?_encode`), also where the search goes on behind what was searched before
(`Bytes.find?_eq`).
-/

namespace BodyText

/-! ### Places in a text -/

theorem byteLength_eq_zero_iff {cs : List Char} : byteLength cs = 0 ↔ cs = [] := by
  cases cs with
  | nil => exact ⟨fun _ => rfl, fun _ => rfl⟩
  | cons c cs =>
    have := Char.utf8Size_pos c
    rw [byteLength]
    exact ⟨fun h => by omega, fun h => by cases h⟩

/-- The text before and after an offset; `none` where the offset is within a character or past the end. -/
def cutAt? : Nat → List Char → Option (List Char × List Char)
  | 0, cs => some ([], cs)
  | _ + 1, [] => none
  | n + 1, c :: cs =>
    if n + 1 < c.utf8Size then none
    else (cutAt? (n + 1 - c.utf8Size) cs).map fun parts => (c :: parts.1, parts.2)

/-- The text from one offset to another; `none` where one of them is within a character or past the end, or
where they are in the wrong order. -/
def slice? (cs : List Char) (first last : Nat) : Option (List Char) :=
  if last < first then none
  else (cutAt? first cs).bind fun parts => (cutAt? (last - first) parts.2).map Prod.fst

theorem cutAt?_eq_some_iff {n : Nat} {cs xs ys : List Char} :
    cutAt? n cs = some (xs, ys) ↔ cs = xs ++ ys ∧ byteLength xs = n := by
  constructor
  · intro h
    fun_induction cutAt? n cs generalizing xs with
    | case1 cs =>
      cases h
      exact ⟨rfl, rfl⟩
    | case2 => cases h
    | case3 => cases h
    | case4 n c cs hsize ih =>
      obtain ⟨⟨xs', ys'⟩, hcut, hparts⟩ := Option.map_eq_some_iff.1 h
      cases hparts
      obtain ⟨rfl, hlen⟩ := ih hcut
      refine ⟨rfl, ?_⟩
      rw [byteLength, hlen]
      omega
  · rintro ⟨rfl, rfl⟩
    induction xs with
    | nil => rw [byteLength, cutAt?, List.nil_append]
    | cons c xs ih =>
      have hpos := Char.utf8Size_pos c
      obtain ⟨n, hn⟩ := Nat.exists_eq_add_one.2
        (show 0 < byteLength (c :: xs) by rw [byteLength]; omega)
      rw [hn, List.cons_append, cutAt?, ← hn, byteLength, if_neg (by omega),
        Nat.add_sub_cancel_left, ih]
      rfl

example : cutAt? 2 ['a', 'é', 'b'] = none ∧
    cutAt? 3 ['a', 'é', 'b'] = some (['a', 'é'], ['b']) := by
  decide

/-- The rest of a text from an offset on. -/
def IsRest (text : List Char) (offset : Nat) (rest : List Char) : Prop :=
  ∃ before, text = before ++ rest ∧ byteLength before = offset

/-- An offset that is no place within a character, and not past the end. -/
def IsPlace (text : List Char) (offset : Nat) : Prop := ∃ rest, IsRest text offset rest

namespace IsRest

variable {text rest xs ys : List Char} {n : Nat}

theorem start (text : List Char) : IsRest text 0 text := ⟨[], rfl, rfl⟩

theorem ending (text : List Char) : IsRest text (byteLength text) [] :=
  ⟨text, (List.append_nil text).symm, rfl⟩

/-- Behind a part of the rest. -/
theorem behind (h : IsRest text n (xs ++ ys)) : IsRest text (n + byteLength xs) ys := by
  obtain ⟨before, rfl, rfl⟩ := h
  exact ⟨before ++ xs, by rw [List.append_assoc], byteLength_append before xs⟩

theorem behind_cons {c : Char} (h : IsRest text n (c :: ys)) : IsRest text (n + c.utf8Size) ys := by
  have hsplit : IsRest text n ([c] ++ ys) := h
  exact hsplit.behind

theorem add_byteLength (h : IsRest text n rest) : n + byteLength rest = byteLength text := by
  obtain ⟨before, rfl, rfl⟩ := h
  exact (byteLength_append before rest).symm

theorem append (h : IsRest text n rest) (more : List Char) :
    IsRest (text ++ more) n (rest ++ more) := by
  obtain ⟨before, rfl, rfl⟩ := h
  exact ⟨before, List.append_assoc .., rfl⟩

theorem exists_cutAt? (h : IsRest text n rest) : ∃ before, cutAt? n text = some (before, rest) := by
  obtain ⟨before, htext, hlen⟩ := h
  exact ⟨before, cutAt?_eq_some_iff.2 ⟨htext, hlen⟩⟩

theorem slice?_eq (h : IsRest text n (xs ++ ys)) : slice? text n (n + byteLength xs) = some xs := by
  obtain ⟨before, hcut⟩ := h.exists_cutAt?
  rw [slice?, if_neg (by omega), hcut, Option.bind_some, Nat.add_sub_cancel_left,
    cutAt?_eq_some_iff.2 ⟨rfl, rfl⟩]
  rfl

end IsRest

namespace Utf8

/-! ### Characters and their bytes -/

theorem length_encode (cs : List Char) : (encode cs).length = byteLength cs := by
  induction cs with
  | nil => rfl
  | cons c cs ih =>
    rw [encode_cons, List.length_append, String.length_utf8EncodeChar, ih, byteLength]

/-- The bytes behind an offset are those of the rest. -/
theorem drop_encode {text rest : List Char} {n : Nat} (h : IsRest text n rest) :
    (encode text).drop n = encode rest := by
  obtain ⟨before, rfl, rfl⟩ := h
  rw [encode_append, ← length_encode, List.drop_left]

/-- A character is one byte below 0x80, or some bytes from there on. -/
theorem utf8EncodeChar_cases (c : Char) :
    c.toNat < 128 ∧ String.utf8EncodeChar c = [UInt8.ofNat c.toNat] ∨
      128 ≤ c.toNat ∧ ∀ b ∈ String.utf8EncodeChar c, 128 ≤ b.toNat := by
  have hvalid : c.toNat < 0x110000 := by
    have hc : c.val.toNat < 0xD800 ∨ 0xDFFF < c.val.toNat ∧ c.val.toNat < 0x110000 := c.valid
    change c.val.toNat < 0x110000
    omega
  have hbyte {n : Nat} (h : 128 ≤ n % 256) : 128 ≤ (UInt8.ofNat n).toNat := by
    rw [UInt8.toNat_ofNat']
    exact h
  rw [String.utf8EncodeChar]
  change _ ∨ _ ∧ ∀ b ∈ (if c.toNat ≤ 0x7F then _ else if c.toNat ≤ 0x7FF then _ else
    if c.toNat ≤ 0xFFFF then _ else _), _
  by_cases hascii : c.toNat ≤ 0x7F
  · exact .inl ⟨Nat.lt_succ_of_le hascii, if_pos hascii⟩
  · refine .inr ⟨by omega, ?_⟩
    rw [if_neg hascii]
    intro b hb
    split at hb
    · simp only [List.mem_cons, List.not_mem_nil, or_false] at hb
      rcases hb with rfl | rfl <;> exact hbyte (by omega)
    · split at hb
      · simp only [List.mem_cons, List.not_mem_nil, or_false] at hb
        rcases hb with rfl | rfl | rfl <;> exact hbyte (by omega)
      · simp only [List.mem_cons, List.not_mem_nil, or_false] at hb
        rcases hb with rfl | rfl | rfl | rfl <;> exact hbyte (by omega)

theorem exists_utf8EncodeChar (c : Char) : ∃ b bs, String.utf8EncodeChar c = b :: bs :=
  List.exists_cons_of_ne_nil
    (List.ne_nil_of_length_pos (String.length_utf8EncodeChar c ▸ Char.utf8Size_pos c))

theorem utf8Size_of_lt {c : Char} (h : c.toNat < 128) : c.utf8Size = 1 := by
  rcases utf8EncodeChar_cases c with ⟨-, hone⟩ | ⟨hge, -⟩
  · rw [← String.length_utf8EncodeChar, hone, List.length_singleton]
  · omega

/-- A set of bytes tells of each byte of a character whether the character is in a set. -/
def Agrees (p : UInt8 → Bool) (q : Char → Bool) : Prop :=
  ∀ c, ∀ b ∈ String.utf8EncodeChar c, p b = q c

/-- It is enough to compare what is below 0x80, when nothing else is in either set. -/
theorem agrees_of_ascii {p : UInt8 → Bool} {q : Char → Bool} (v : Bool)
    (hascii : ∀ n < 128, p (UInt8.ofNat n) = q (Char.ofNat n))
    (hp : ∀ n < 256, 128 ≤ n → p (UInt8.ofNat n) = v) (hq : ∀ c : Char, 128 ≤ c.toNat → q c = v) :
    Agrees p q := by
  intro c b hb
  rcases utf8EncodeChar_cases c with ⟨hc, hbytes⟩ | ⟨hc, hbytes⟩
  · rw [hbytes] at hb
    rw [List.mem_singleton.1 hb, hascii _ hc, Char.ofNat_toNat]
  · rw [← UInt8.ofNat_toNat (x := b), hp _ b.toNat_lt (hbytes b hb), hq c hc]

theorem Agrees.not {p : UInt8 → Bool} {q : Char → Bool} (h : Agrees p q) :
    Agrees (!p ·) (!q ·) := fun c b hb => congrArg (!·) (h c b hb)

theorem Agrees.and {p p' : UInt8 → Bool} {q q' : Char → Bool} (h : Agrees p q)
    (h' : Agrees p' q') : Agrees (fun b => p b && p' b) (fun c => q c && q' c) :=
  fun c b hb => congrArg₂ (· && ·) (h c b hb) (h' c b hb)

/-- Characters below 0x80 have the same byte only when they are the same. -/
theorem ofNat_eq_iff {c d : Char} (hc : c.toNat < 128) (hd : d.toNat < 128) :
    UInt8.ofNat c.toNat = UInt8.ofNat d.toNat ↔ c = d := by
  constructor
  · intro h
    have hbyte := congrArg UInt8.toNat h
    rw [UInt8.toNat_ofNat', UInt8.toNat_ofNat'] at hbyte
    exact Char.toNat_inj.1 (by omega)
  · rintro rfl
    rfl

/-- A character below 0x80 is told by its byte. -/
theorem agrees_ne {d : Char} (hd : d.toNat < 128) :
    Agrees (· ≠ UInt8.ofNat d.toNat) (· ≠ d) := by
  intro c b hb
  rw [decide_eq_decide]
  refine not_congr ?_
  rcases utf8EncodeChar_cases c with ⟨hc, hbytes⟩ | ⟨hc, hbytes⟩
  · rw [hbytes] at hb
    rw [List.mem_singleton.1 hb, ofNat_eq_iff hc hd]
  · have hbyte := hbytes b hb
    refine iff_of_false ?_ ?_
    · rintro rfl
      rw [UInt8.toNat_ofNat'] at hbyte
      omega
    · rintro rfl
      omega

/-- A run of bytes of one kind ends where the run of characters of that kind ends. -/
theorem takeWhile_encode {p : UInt8 → Bool} {q : Char → Bool} (h : Agrees p q) (cs : List Char) :
    (encode cs).takeWhile p = encode (cs.takeWhile q) := by
  induction cs with
  | nil => rfl
  | cons c cs ih =>
    rw [encode_cons, List.takeWhile_cons]
    split
    · rename_i hc
      have hall : ∀ b ∈ String.utf8EncodeChar c, p b = true := fun b hb => (h c b hb).trans hc
      rw [List.takeWhile_append_of_pos hall, ih, encode_cons]
    · rename_i hc
      obtain ⟨b, bs, hbytes⟩ := exists_utf8EncodeChar c
      have hb : p b = q c := h c b (hbytes ▸ List.mem_cons_self)
      rw [hbytes, List.cons_append, List.takeWhile_cons_of_neg (by rw [hb]; exact hc)]
      rfl

end Utf8

/-! ### Searching the bytes -/

namespace Bytes

/-- A byte in lower case, if it is a letter. -/
def toLower (b : UInt8) : UInt8 := if 0x41 ≤ b ∧ b ≤ 0x5A then b + 0x20 else b

/-- Whether two bytes are the same, or the same letter where case is ignored. -/
def same (ignoreCase : Bool) (b m : UInt8) : Bool :=
  if ignoreCase then toLower b = toLower m else b = m

/-- Whether some bytes start with a marker. -/
def startsWith (ignoreCase : Bool) : List UInt8 → List UInt8 → Bool
  | [], _ => true
  | _ :: _, [] => false
  | m :: ms, b :: bs => same ignoreCase b m && startsWith ignoreCase ms bs

/-- How many bytes stand before the first occurrence of a marker. -/
def indexOf? (ignoreCase : Bool) (marker : List UInt8) : List UInt8 → Option Nat
  | [] => none
  | b :: bs =>
    if startsWith ignoreCase marker (b :: bs) then some 0
    else (indexOf? ignoreCase marker bs).map (· + 1)

/-- The index of the first occurrence of a marker that is not before `start`. -/
def find? (ignoreCase : Bool) (marker : List UInt8) (start : Nat) (bytes : List UInt8) :
    Option Nat :=
  if bytes.length ≤ start ∨ bytes.length - start < marker.length then none
  else (indexOf? ignoreCase marker (bytes.drop start)).map (start + ·)

variable {ignoreCase : Bool} {marker bytes : List UInt8} {start : Nat}

theorem length_le_of_startsWith (h : startsWith ignoreCase marker bytes = true) :
    marker.length ≤ bytes.length := by
  fun_induction startsWith ignoreCase marker bytes with
  | case1 => exact Nat.zero_le _
  | case2 => cases h
  | case3 m ms b bs ih =>
    rw [List.length_cons, List.length_cons]
    exact Nat.succ_le_succ (ih (Bool.and_eq_true_iff.1 h).2)

theorem startsWith_append (h : marker.length ≤ bytes.length) (more : List UInt8) :
    startsWith ignoreCase marker (bytes ++ more) = startsWith ignoreCase marker bytes := by
  fun_induction startsWith ignoreCase marker bytes with
  | case1 => rfl
  | case2 => simp at h
  | case3 m ms b bs ih =>
    rw [List.cons_append, startsWith, ih (by simpa using h)]

theorem indexOf?_of_lt (h : bytes.length < marker.length) :
    indexOf? ignoreCase marker bytes = none := by
  induction bytes with
  | nil => rfl
  | cons b bs ih =>
    rw [List.length_cons] at h
    have hnot : ¬ startsWith ignoreCase marker (b :: bs) = true := fun hstart => by
      have := length_le_of_startsWith hstart
      rw [List.length_cons] at this
      omega
    rw [indexOf?, if_neg hnot, ih (by omega), Option.map_none]

/-- No occurrence of a marker begins before an index. -/
def Searched (ignoreCase : Bool) (marker bytes : List UInt8) (start : Nat) : Prop :=
  ∀ i < start, startsWith ignoreCase marker (bytes.drop i) = false

theorem searched_zero : Searched ignoreCase marker bytes 0 := fun i hi => absurd hi (Nat.not_lt_zero i)

/-- Where no occurrence begins before the start, the first one of all is found. -/
theorem find?_eq (hmarker : marker ≠ []) (h : Searched ignoreCase marker bytes start) :
    find? ignoreCase marker start bytes = indexOf? ignoreCase marker bytes := by
  induction start generalizing bytes with
  | zero =>
    rw [find?, List.drop_zero]
    split
    · rename_i hshort
      have hpos := List.length_pos_iff.2 hmarker
      exact (indexOf?_of_lt (by omega)).symm
    · simp
  | succ start ih =>
    cases bytes with
    | nil => simp [find?, indexOf?]
    | cons b bs =>
      have hfirst : ¬ startsWith ignoreCase marker (b :: bs) = true := by
        exact Bool.eq_false_iff.1 (h 0 (Nat.succ_pos start))
      rw [indexOf?, if_neg hfirst, ← ih fun i hi => h (i + 1) (Nat.succ_lt_succ hi), find?, find?,
        List.length_cons, List.drop_succ_cons, Nat.add_sub_add_right]
      simp only [Nat.add_le_add_iff_right]
      split
      · rfl
      · rw [Option.map_map]
        exact congrArg (Option.map · _) (funext fun i => Nat.add_right_comm start 1 i)

theorem startsWith_drop_of_none (h : indexOf? ignoreCase marker bytes = none) {i : Nat}
    (hi : i < bytes.length) : startsWith ignoreCase marker (bytes.drop i) = false := by
  induction bytes generalizing i with
  | nil => exact absurd hi (Nat.not_lt_zero i)
  | cons b bs ih =>
    rw [indexOf?] at h
    split at h
    · cases h
    · rename_i hfirst
      cases i with
      | zero => exact Bool.eq_false_iff.2 hfirst
      | succ i =>
        rw [List.drop_succ_cons]
        exact ih (Option.map_eq_none_iff.1 h) (Nat.lt_of_succ_lt_succ hi)

/-- Where a marker was not found, it may begin, once more is added, no earlier than its own length less one
before the end. -/
theorem searched_append (h : indexOf? ignoreCase marker bytes = none) (more : List UInt8) :
    Searched ignoreCase marker (bytes ++ more) (bytes.length - (marker.length - 1)) := by
  intro i hi
  rw [List.drop_append_of_le_length (by omega), startsWith_append]
  · exact startsWith_drop_of_none h (by omega)
  · rw [List.length_drop]
    omega

/-! ### Markers among bytes and among characters -/

/-- The bytes of a marker are found where its characters are: each of these is below 0x80 and a lower case,
and its byte is the same as the bytes of the characters that it is the lower case of. -/
def Spells (ignoreCase : Bool) (marker : List Char) : Prop :=
  ∀ m ∈ marker, m.toNat < 128 ∧
    Utf8.Agrees (same ignoreCase · (UInt8.ofNat m.toNat)) (fun c => c.toLower = m)

/-- How many bytes stand in a text before the first occurrence of a marker. -/
def offset? (marker : List Char) : List Char → Option Nat
  | [] => none
  | c :: cs =>
    if (after? marker (c :: cs)).isSome then some 0
    else (offset? marker cs).map (c.utf8Size + ·)

variable {m : Char} {ms : List Char}

theorem encode_marker (h : m.toNat < 128) (ms : List Char) :
    Utf8.encode (m :: ms) = UInt8.ofNat m.toNat :: Utf8.encode ms := by
  rcases Utf8.utf8EncodeChar_cases m with ⟨-, hbytes⟩ | ⟨hge, -⟩
  · rw [Utf8.encode_cons, hbytes]
    rfl
  · omega

/-- A character of more than one byte is the lower case of none below 0x80, and neither is a character in
lower case of it. -/
theorem toLower_ne {c : Char} (hm : m.toNat < 128) (hc : 128 ≤ c.toNat) : c.toLower ≠ m := by
  rcases toLower_cases c with hsame | ⟨-, hhigh, -⟩
  · rintro rfl
    rw [hsame] at hm
    omega
  · omega

/-- The byte in lower case is that of the character in lower case. -/
theorem toLower_ofNat {c : Char} (h : c.toNat < 128) :
    toLower (UInt8.ofNat c.toNat) = UInt8.ofNat c.toLower.toNat := by
  have hascii : ∀ n < 128, toLower (UInt8.ofNat n) = UInt8.ofNat (Char.ofNat n).toLower.toNat := by
    decide
  rw [hascii _ h, Char.ofNat_toNat]

theorem toLower_of_le {b : UInt8} (h : 128 ≤ b.toNat) : toLower b = b := by
  rw [toLower, if_neg]
  intro hletter
  have hle : b.toNat ≤ 90 := UInt8.le_iff_toNat_le.1 hletter.2
  omega

theorem toNat_toLower_lt {c : Char} (h : c.toNat < 128) : c.toLower.toNat < 128 := by
  rcases toLower_cases c with hsame | ⟨-, hhigh, hlower⟩
  · rwa [hsame]
  · omega

/-- What a marker may be made of: characters below 0x80 in lower case, and no letters where their case is not
ignored. -/
def isMark (ignoreCase : Bool) (m : Char) : Bool :=
  m.toNat < 128 && m.toLower = m && (ignoreCase || !m.isLower)

theorem spells_of_all {marker : List Char} (h : marker.all (isMark ignoreCase) = true) :
    Spells ignoreCase marker := by
  intro m hm
  have hmark := List.all_eq_true.1 h m hm
  simp only [isMark, Bool.and_eq_true, decide_eq_true_eq] at hmark
  obtain ⟨⟨hlt, hlower⟩, hletter⟩ := hmark
  refine ⟨hlt, fun c b hb => ?_⟩
  change same ignoreCase b (UInt8.ofNat m.toNat) = decide (c.toLower = m)
  cases ignoreCase with
  | false =>
    have hno : m.isLower = false := by simpa using hletter
    have hsame : decide (b ≠ UInt8.ofNat m.toNat) = decide (c ≠ m) := Utf8.agrees_ne hlt c b hb
    have hchar : c.toLower = m ↔ c = m := ⟨eq_of_toLower hno, fun hc => hc ▸ hlower⟩
    rw [same, if_neg Bool.false_ne_true, decide_eq_decide, hchar]
    exact not_iff_not.1 (decide_eq_decide.1 hsame)
  | true =>
    rw [same, if_pos rfl, decide_eq_decide, toLower_ofNat hlt, hlower]
    rcases Utf8.utf8EncodeChar_cases c with ⟨hc, hbytes⟩ | ⟨hc, hbytes⟩
    · rw [hbytes] at hb
      rw [List.mem_singleton.1 hb, toLower_ofNat hc, Utf8.ofNat_eq_iff (toNat_toLower_lt hc) hlt]
    · refine iff_of_false (fun heq => ?_) (toLower_ne hlt hc)
      have hbyte := hbytes b hb
      rw [toLower_of_le hbyte] at heq
      rw [heq, UInt8.toNat_ofNat'] at hbyte
      omega

theorem startsWith_encode {marker : List Char} (h : Spells ignoreCase marker) (cs : List Char) :
    startsWith ignoreCase (Utf8.encode marker) (Utf8.encode cs) = (after? marker cs).isSome := by
  induction marker generalizing cs with
  | nil => rfl
  | cons m ms ih =>
    obtain ⟨hm, hagrees⟩ := h m List.mem_cons_self
    have hms : Spells ignoreCase ms := fun m' hmem => h m' (List.mem_cons_of_mem m hmem)
    rw [encode_marker hm]
    cases cs with
    | nil => rfl
    | cons c cs =>
      obtain ⟨b, bs, hbytes⟩ := Utf8.exists_utf8EncodeChar c
      have hb : same ignoreCase b (UInt8.ofNat m.toNat) = decide (c.toLower = m) :=
        hagrees c b (hbytes ▸ List.mem_cons_self)
      rw [Utf8.encode_cons, hbytes, List.cons_append, startsWith, hb, after?]
      by_cases hlower : c.toLower = m
      · -- a character with the lower case of the marker's has no other bytes
        have hbs : bs = [] := by
          rcases Utf8.utf8EncodeChar_cases c with ⟨-, hone⟩ | ⟨hge, -⟩
          · exact (List.cons.inj (hbytes.symm.trans hone)).2
          · exact absurd hlower (toLower_ne hm hge)
        rw [hbs, List.nil_append, ih hms, if_pos hlower, decide_eq_true hlower, Bool.true_and]
      · rw [if_neg hlower, decide_eq_false hlower, Bool.false_and]
        rfl

/-- Bytes that a marker cannot begin with are passed over. -/
theorem indexOf?_append {m : UInt8} {ms xs : List UInt8}
    (h : ∀ b ∈ xs, same ignoreCase b m = false) (ys : List UInt8) :
    indexOf? ignoreCase (m :: ms) (xs ++ ys) =
      (indexOf? ignoreCase (m :: ms) ys).map (xs.length + ·) := by
  induction xs with
  | nil => simp
  | cons b xs ih =>
    rw [List.cons_append, indexOf?, startsWith, h b List.mem_cons_self,
      ih fun b' hmem => h b' (List.mem_cons_of_mem b hmem), Option.map_map]
    simp only [Bool.false_and, Bool.false_eq_true, if_false]
    exact congrArg (Option.map · _) (funext fun i => by simp only [Function.comp, List.length_cons]; omega)

/-- **A marker is found at the same place** among the bytes of a text and among its characters. -/
theorem indexOf?_encode (h : Spells ignoreCase (m :: ms)) (cs : List Char) :
    indexOf? ignoreCase (Utf8.encode (m :: ms)) (Utf8.encode cs) = offset? (m :: ms) cs := by
  obtain ⟨hm, hagrees⟩ := h m List.mem_cons_self
  induction cs with
  | nil => rfl
  | cons c cs ih =>
    obtain ⟨b, bs, hbytes⟩ := Utf8.exists_utf8EncodeChar c
    have hsize : bs.length + 1 = c.utf8Size := by
      rw [← String.length_utf8EncodeChar, hbytes, List.length_cons]
    have hstarts := startsWith_encode h (c :: cs)
    rw [Utf8.encode_cons c cs, hbytes, List.cons_append] at hstarts ⊢
    rw [indexOf?, hstarts, offset?]
    split
    · rfl
    · -- the other bytes of a character begin no marker
      have hbs : ∀ b' ∈ bs, same ignoreCase b' (UInt8.ofNat m.toNat) = false := by
        intro b' hmem
        have hb' : same ignoreCase b' (UInt8.ofNat m.toNat) = decide (c.toLower = m) :=
          hagrees c b' (hbytes ▸ List.mem_cons_of_mem b hmem)
        rw [hb', decide_eq_false_iff_not]
        rcases Utf8.utf8EncodeChar_cases c with ⟨-, hone⟩ | ⟨hge, -⟩
        · rw [(List.cons.inj (hbytes.symm.trans hone)).2] at hmem
          exact absurd hmem List.not_mem_nil
        · exact toLower_ne hm hge
      rw [encode_marker hm] at ih ⊢
      rw [indexOf?_append hbs, ih, Option.map_map]
      exact congrArg (Option.map · _)
        (funext fun i => by simp only [Function.comp]; omega)

/-- What stands at the offset of the first occurrence. -/
theorem exists_of_offset? {marker cs : List Char} {n : Nat} (h : offset? marker cs = some n) :
    ∃ before occurrence rest, cs = before ++ (occurrence ++ rest) ∧ byteLength before = n ∧
      lower occurrence = marker ∧ past? marker cs = some rest := by
  induction cs generalizing n with
  | nil => cases h
  | cons c cs ih =>
    rw [offset?] at h
    split at h
    · rename_i hstarts
      cases h
      obtain ⟨rest, hrest⟩ := Option.isSome_iff_exists.1 hstarts
      obtain ⟨occurrence, hcs, hocc⟩ := after?_eq_some_iff.1 hrest
      exact ⟨[], occurrence, rest, hcs, rfl, hocc, past?_of_after? hrest⟩
    · rename_i hstarts
      obtain ⟨n', hn', rfl⟩ := Option.map_eq_some_iff.1 h
      obtain ⟨before, occurrence, rest, rfl, hlen, hocc, hpast⟩ := ih hn'
      refine ⟨c :: before, occurrence, rest, rfl, by rw [byteLength, hlen], hocc, ?_⟩
      rw [past?, Option.not_isSome_iff_eq_none.1 hstarts]
      exact hpast

/-- A character that is no letter is first where the text is split at it. -/
theorem offset?_singleton {d : Char} (hlower : d.toLower = d) (hletter : d.isLower = false)
    (cs : List Char) : offset? [d] cs = (splitAt? d cs).map fun parts => byteLength parts.1 := by
  induction cs with
  | nil => rfl
  | cons c cs ih =>
    have hafter : (after? [d] (c :: cs)).isSome = true ↔ c = d := by
      rw [after?]
      by_cases hc : c.toLower = d
      · rw [if_pos hc]
        exact iff_of_true rfl (eq_of_toLower hletter hc)
      · rw [if_neg hc]
        exact iff_of_false Bool.false_ne_true fun heq => hc (heq ▸ hlower)
    rw [offset?, splitAt?_cons]
    by_cases hc : c = d
    · rw [if_pos (hafter.2 hc), if_pos hc]
      rfl
    · rw [if_neg (mt hafter.1 hc), if_neg hc, ih, Option.map_map, Option.map_map]
      rfl

/-- A text is split at the first of the characters it is split at. -/
theorem not_mem_of_splitAt? {d : Char} {cs before after : List Char}
    (h : splitAt? d cs = some (before, after)) : d ∉ before := by
  rw [splitAt?] at h
  split at h
  · cases h
  · cases h
    intro hmem
    have hne := List.mem_takeWhile_imp hmem
    simp at hne

theorem past?_of_offset?_none {marker cs : List Char} (hne : marker ≠ [])
    (h : offset? marker cs = none) : past? marker cs = none := by
  induction cs with
  | nil =>
    obtain ⟨m, ms, rfl⟩ := List.exists_cons_of_ne_nil hne
    rfl
  | cons c cs ih =>
    rw [offset?] at h
    split at h
    · cases h
    · rename_i hstarts
      rw [past?, Option.not_isSome_iff_eq_none.1 hstarts]
      exact ih (Option.map_eq_none_iff.1 h)

/-- The text through a first occurrence ends with it. -/
theorem past?_eq_some_nil {marker before occurrence rest : List Char} (hocc : lower occurrence = marker)
    (h : past? marker (before ++ (occurrence ++ rest)) = some rest) :
    past? marker (before ++ occurrence) = some [] := by
  subst hocc
  obtain ⟨more, hmore⟩ := Option.ne_none_iff_exists'.1 (past?_ne_none before occurrence [])
  rw [List.append_nil] at hmore
  have hlonger := past?_append_of_some hmore rest
  rw [List.append_assoc, h, Option.some_inj] at hlonger
  rw [hmore, List.self_eq_append_left.1 hlonger]

/-- A text that is a marker but for the case of its letters has a byte for each character. -/
theorem byteLength_of_lower {occurrence marker : List Char} (h : lower occurrence = marker)
    (hmarker : ∀ m ∈ marker, m.toNat < 128) : byteLength occurrence = marker.length := by
  subst h
  induction occurrence with
  | nil => rfl
  | cons c cs ih =>
    have hc : c.toNat < 128 := by
      by_contra hge
      exact toLower_ne (hmarker c.toLower List.mem_cons_self) (Nat.not_lt.1 hge) rfl
    rw [byteLength, Utf8.utf8Size_of_lt hc, ih fun m hmem => hmarker m (List.mem_cons_of_mem _ hmem)]
    exact Nat.add_comm _ _

theorem length_encode_marker {marker : List Char} (hmarker : ∀ m ∈ marker, m.toNat < 128) :
    (Utf8.encode marker).length = marker.length := by
  induction marker with
  | nil => rfl
  | cons m ms ih =>
    rw [encode_marker (hmarker m List.mem_cons_self), List.length_cons, List.length_cons,
      ih fun m' hmem => hmarker m' (List.mem_cons_of_mem m hmem)]

section

variable {marker cs : List Char} {start : Nat}

/-- **A search from where it ended before** finds a marker at its first occurrence among the characters. -/
theorem find?_encode (h : Spells ignoreCase marker) (hne : marker ≠ [])
    (hstart : Searched ignoreCase (Utf8.encode marker) (Utf8.encode cs) start) :
    find? ignoreCase (Utf8.encode marker) start (Utf8.encode cs) = offset? marker cs := by
  obtain ⟨m, ms, rfl⟩ := List.exists_cons_of_ne_nil hne
  rw [find?_eq (Utf8.encode_ne_nil hne) hstart, indexOf?_encode h]

/-- Where a marker does not occur, the search may go on behind the text, less what an occurrence may start
with. -/
theorem searched_encode_append (h : Spells ignoreCase marker) (hne : marker ≠ [])
    (hnone : offset? marker cs = none) (more : List Char) :
    Searched ignoreCase (Utf8.encode marker) (Utf8.encode (cs ++ more))
      (byteLength cs - (marker.length - 1)) := by
  obtain ⟨m, ms, rfl⟩ := List.exists_cons_of_ne_nil hne
  rw [Utf8.encode_append, ← Utf8.length_encode, ← length_encode_marker fun m hm => (h m hm).1]
  exact searched_append ((indexOf?_encode h cs).trans hnone) _

end

end Bytes

end BodyText
