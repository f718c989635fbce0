import Mathlib
import BodyText.Proofs.Codes

/-!
# UTF-8 and lines

How the decoder of UTF-8 gets along with text that is cut. A line end is a byte of its own: it
settles whatever stands before it, so degraded decoding may be done line by line
(`Utf8.lossy_append_lineEnd`). And a text that was encoded (`Utf8.encode`) may be cut anywhere: what
the limit cuts off of its last character is held back, so the lines of the encoded text are the
pieces into which the limit cuts the text itself (`Charset.linesOf_encode`).
-/

namespace BodyText

/-! ### Reading some of the bytes -/

namespace Decoder

variable (d : Decoder)

/-- The pieces that some bytes settle from a given state on, and the state after them. -/
def read (s : d.State) : List UInt8 → List Piece × d.State
  | [] => ([], s)
  | b :: bs => ((d.step s b).1 ++ (read (d.step s b).2 bs).1, (read (d.step s b).2 bs).2)

theorem piecesFrom_append (s : d.State) (xs ys : List UInt8) :
    d.piecesFrom s (xs ++ ys) = (d.read s xs).1 ++ d.piecesFrom (d.read s xs).2 ys := by
  induction xs generalizing s with
  | nil => rfl
  | cons x xs ih => rw [List.cons_append, piecesFrom, ih, read, List.append_assoc]

theorem piecesFrom_eq (s : d.State) (xs : List UInt8) :
    d.piecesFrom s xs = (d.read s xs).1 ++ d.finish (d.read s xs).2 := by
  have happend := d.piecesFrom_append s xs []
  rwa [List.append_nil] at happend

end Decoder

theorem replaced_append (xs ys : List Piece) :
    replaced (xs ++ ys) = replaced xs ++ replaced ys :=
  List.map_append

namespace Utf8

/-! ### First bytes -/

/-- The first byte of a character, by its number. -/
theorem first_eq (b : UInt8) :
    first b =
      if b.toNat ≤ 0x7F then ([some (Char.ofNat b.toNat)], .start)
      else if b.toNat < 0xC2 then ([none], .start)
      else if b.toNat ≤ 0xDF then ([], .inside (b.toNat % 32) 1 0x80 0xBF)
      else if b.toNat = 0xE0 then ([], .inside 0 2 0xA0 0xBF)
      else if b.toNat = 0xED then ([], .inside 13 2 0x80 0x9F)
      else if b.toNat ≤ 0xEF then ([], .inside (b.toNat % 16) 2 0x80 0xBF)
      else if b.toNat = 0xF0 then ([], .inside 0 3 0x90 0xBF)
      else if b.toNat ≤ 0xF3 then ([], .inside (b.toNat % 8) 3 0x80 0xBF)
      else if b.toNat = 0xF4 then ([], .inside 4 3 0x80 0x8F)
      else ([none], .start) := by
  simp only [first, UInt8.le_iff_toNat_le, UInt8.lt_iff_toNat_lt, ← UInt8.toNat_inj]
  rfl

variable {b : UInt8}

theorem first_ascii (h : b.toNat ≤ 0x7F) : first b = ([some (Char.ofNat b.toNat)], .start) := by
  rw [first_eq, if_pos h]

theorem first_two (h : 0xC2 ≤ b.toNat) (h' : b.toNat ≤ 0xDF) :
    first b = ([], .inside (b.toNat % 32) 1 0x80 0xBF) := by
  rw [first_eq, if_neg (by omega), if_neg (by omega), if_pos h']

theorem first_three (h : 0xE0 ≤ b.toNat) (h' : b.toNat ≤ 0xEF) :
    first b =
      ([], .inside (b.toNat % 16) 2 (if b.toNat = 0xE0 then 0xA0 else 0x80)
        (if b.toNat = 0xED then 0x9F else 0xBF)) := by
  rw [first_eq, if_neg (by omega), if_neg (by omega), if_neg (by omega)]
  by_cases h1 : b.toNat = 0xE0
  · simp [h1]
  · rw [if_neg h1, if_neg h1]
    by_cases h2 : b.toNat = 0xED
    · simp [h2]
    · rw [if_neg h2, if_neg h2, if_pos h']

theorem first_four (h : 0xF0 ≤ b.toNat) (h' : b.toNat ≤ 0xF4) :
    first b =
      ([], .inside (b.toNat % 8) 3 (if b.toNat = 0xF0 then 0x90 else 0x80)
        (if b.toNat = 0xF4 then 0x8F else 0xBF)) := by
  rw [first_eq, if_neg (by omega), if_neg (by omega), if_neg (by omega), if_neg (by omega),
    if_neg (by omega), if_neg (by omega)]
  by_cases h1 : b.toNat = 0xF0
  · simp [h1]
  · rw [if_neg h1, if_neg h1]
    by_cases h2 : b.toNat = 0xF4
    · simp [h2]
    · rw [if_neg h2, if_neg h2, if_pos (by omega)]

theorem first_other (h : 0x7F < b.toNat ∧ b.toNat < 0xC2 ∨ 0xF4 < b.toNat) :
    first b = ([none], .start) := by
  rw [first_eq]
  rcases h with ⟨h, h'⟩ | h
  · rw [if_neg (by omega), if_pos h']
  · rw [if_neg (by omega), if_neg (by omega), if_neg (by omega), if_neg (by omega),
      if_neg (by omega), if_neg (by omega), if_neg (by omega), if_neg (by omega),
      if_neg (by omega)]

/-! ### Line ends -/

/-- What a state that the decoder gets into is like: only bytes from 0x80 to 0xBF go on from it, and
the character begun will be no ASCII one. -/
def State.Sound : State → Prop
  | .start => True
  | .inside value missing low high =>
    0x80 ≤ low.toNat ∧ high.toNat ≤ 0xBF ∧
      0x80 ≤ (value * 64 + low.toNat % 64) * 64 ^ (missing - 1)

theorem ofNat_ne_newline {n : Nat} (h : n ≠ 10) : Char.ofNat n ≠ '\n' := by
  rw [Char.ofNat]
  split
  · rename_i hvalid
    intro hchar
    exact h (congrArg Char.toNat hchar)
  · intro hchar
    exact absurd (congrArg Char.toNat hchar) (by decide)

/-- A first byte gives no line end but that which it is. -/
theorem sound_first (b : UInt8) :
    (first b).2.Sound ∧ (b ≠ lineEnd → some '\n' ∉ (first b).1) := by
  by_cases h1 : b.toNat ≤ 0x7F
  · rw [first_ascii h1]
    refine ⟨trivial, ?_⟩
    intro hb hmem
    have hchar : some '\n' = some (Char.ofNat b.toNat) := List.mem_singleton.1 hmem
    refine ofNat_ne_newline (fun hn => hb ?_) (Option.some.inj hchar).symm
    exact UInt8.toNat_inj.1 hn
  · by_cases h2 : 0xC2 ≤ b.toNat ∧ b.toNat ≤ 0xDF
    · rw [first_two h2.1 h2.2]
      refine ⟨⟨by decide, by decide, ?_⟩, fun _ => List.not_mem_nil⟩
      simp
      omega
    · by_cases h3 : 0xE0 ≤ b.toNat ∧ b.toNat ≤ 0xEF
      · rw [first_three h3.1 h3.2]
        refine ⟨?_, fun _ => List.not_mem_nil⟩
        by_cases h : b.toNat = 0xE0
        · rw [if_pos h, if_neg (by omega)]
          exact ⟨by decide, by decide, by simp; omega⟩
        · rw [if_neg h]
          refine ⟨by decide, by split <;> decide, ?_⟩
          simp
          omega
      · by_cases h4 : 0xF0 ≤ b.toNat ∧ b.toNat ≤ 0xF4
        · rw [first_four h4.1 h4.2]
          refine ⟨?_, fun _ => List.not_mem_nil⟩
          by_cases h : b.toNat = 0xF0
          · rw [if_pos h, if_neg (by omega)]
            exact ⟨by decide, by decide, by simp; omega⟩
          · rw [if_neg h]
            refine ⟨by decide, by split <;> decide, ?_⟩
            simp
            omega
        · rw [first_other (by omega)]
          exact ⟨trivial, fun _ hmem => by simp at hmem⟩

/-- A byte that is no line end gives none, and leaves a state that is as it should be. -/
theorem sound_step {s : State} (h : s.Sound) (b : UInt8) :
    (step s b).2.Sound ∧ (b ≠ lineEnd → some '\n' ∉ (step s b).1) := by
  cases s with
  | start => exact sound_first b
  | inside value missing low high =>
    obtain ⟨hlow, hhigh, hvalue⟩ := h
    rw [step]
    by_cases hb : low ≤ b ∧ b ≤ high
    · rw [if_pos hb]
      have hb1 := UInt8.le_iff_toNat_le.1 hb.1
      have hb2 := UInt8.le_iff_toNat_le.1 hb.2
      have hextend : value * 64 + low.toNat % 64 ≤ extend value b := by
        unfold extend
        omega
      have hle : 0x80 ≤ extend value b * 64 ^ (missing - 1) :=
        Nat.le_trans hvalue (Nat.mul_le_mul_right _ hextend)
      by_cases hm : missing ≤ 1
      · rw [if_pos hm]
        rw [show missing - 1 = 0 by omega, Nat.pow_zero, Nat.mul_one] at hle
        refine ⟨trivial, ?_⟩
        intro _ hmem
        have hchar : some '\n' = some (Char.ofNat (extend value b)) := List.mem_singleton.1 hmem
        exact ofNat_ne_newline (by omega) (Option.some.inj hchar).symm
      · rw [if_neg hm]
        refine ⟨⟨by decide, by decide, ?_⟩, fun _ => List.not_mem_nil⟩
        rw [show missing - 1 = missing - 1 - 1 + 1 by omega, Nat.pow_succ'] at hle
        rw [← Nat.mul_assoc] at hle
        exact hle
    · rw [if_neg hb]
      obtain ⟨hsound, hnone⟩ := sound_first b
      exact ⟨hsound, fun hne hmem => hnone hne (by simpa using hmem)⟩

/-- A line end settles what was begun. -/
theorem step_lineEnd {s : State} (h : s.Sound) :
    step s lineEnd = (finish s ++ [some '\n'], .start) := by
  cases s with
  | start => rfl
  | inside value missing low high =>
    have hlow : ¬ (low ≤ lineEnd ∧ lineEnd ≤ high) := fun hb => by
      have hle := UInt8.le_iff_toNat_le.1 hb.1
      have hge := h.1
      rw [show lineEnd.toNat = 10 from rfl] at hle
      omega
    rw [step, if_neg hlow]
    rfl

theorem sound_read {s : State} (h : s.Sound) (bytes : List UInt8) :
    (Decoder.utf8.read s bytes).2.Sound ∧
      (lineEnd ∉ bytes → some '\n' ∉ (Decoder.utf8.read s bytes).1) := by
  induction bytes generalizing s with
  | nil => exact ⟨h, fun _ => List.not_mem_nil⟩
  | cons b bs ih =>
    obtain ⟨hsound, hnone⟩ := sound_step h b
    obtain ⟨hsound', hnone'⟩ := ih hsound
    refine ⟨hsound', ?_⟩
    intro hmem hpiece
    rw [List.mem_cons, not_or] at hmem
    rcases List.mem_append.1 hpiece with hpiece | hpiece
    · exact hnone (Ne.symm hmem.1) hpiece
    · exact hnone' hmem.2 hpiece

theorem sound_read_start (bytes : List UInt8) :
    State.Sound (Decoder.utf8.read Decoder.utf8.start bytes).2 ∧
      (lineEnd ∉ bytes → some '\n' ∉ (Decoder.utf8.read Decoder.utf8.start bytes).1) :=
  sound_read (s := .start) trivial bytes

/-- **Degraded decoding goes line by line.** -/
theorem lossy_append_lineEnd (xs ys : List UInt8) :
    Decoder.utf8.lossy (xs ++ lineEnd :: ys) =
      Decoder.utf8.lossy xs ++ '\n' :: Decoder.utf8.lossy ys := by
  have hstep := step_lineEnd (sound_read_start xs).1
  have hpieces : Decoder.utf8.pieces (xs ++ lineEnd :: ys) =
      Decoder.utf8.pieces xs ++ ([some '\n'] ++ Decoder.utf8.pieces ys) := by
    calc
      _ = (Decoder.utf8.read Decoder.utf8.start xs).1 ++
          Decoder.utf8.piecesFrom (Decoder.utf8.read Decoder.utf8.start xs).2 (lineEnd :: ys) :=
        Decoder.utf8.piecesFrom_append _ _ _
      _ = (Decoder.utf8.read Decoder.utf8.start xs).1 ++
          ((finish (Decoder.utf8.read Decoder.utf8.start xs).2 ++ [some '\n']) ++
            Decoder.utf8.pieces ys) :=
        congrArg (_ ++ ·) (congrArg (fun r => r.1 ++ Decoder.utf8.piecesFrom r.2 ys) hstep)
      _ = ((Decoder.utf8.read Decoder.utf8.start xs).1 ++
          finish (Decoder.utf8.read Decoder.utf8.start xs).2) ++
            ([some '\n'] ++ Decoder.utf8.pieces ys) := by
        simp only [List.append_assoc]
      _ = _ := congrArg (· ++ _) (Decoder.utf8.piecesFrom_eq _ _).symm
  rw [Decoder.lossy, hpieces, replaced_append, replaced_append]
  rfl

/-- No other byte gives a line end. -/
theorem not_mem_lossy {bytes : List UInt8} (h : lineEnd ∉ bytes) :
    '\n' ∉ Decoder.utf8.lossy bytes := by
  intro hmem
  obtain ⟨piece, hpiece, hchar⟩ := List.mem_map.1 hmem
  rw [Decoder.pieces, Decoder.piecesFrom_eq] at hpiece
  cases piece with
  | none => exact absurd hchar (by decide)
  | some c =>
    obtain rfl : c = '\n' := hchar
    rcases List.mem_append.1 hpiece with hread | hend
    · exact (sound_read_start bytes).2 h hread
    · revert hend
      change some '\n' ∉ finish _
      cases (Decoder.utf8.read Decoder.utf8.start bytes).2 with
      | start => exact List.not_mem_nil
      | inside value missing low high => exact fun hend => by simp [finish] at hend

/-! ### Encoded characters -/

/-- The bytes of a text. -/
def encode (cs : List Char) : List UInt8 := cs.flatMap String.utf8EncodeChar

@[simp] theorem encode_nil : encode [] = [] := rfl

@[simp] theorem encode_cons (c : Char) (cs : List Char) :
    encode (c :: cs) = String.utf8EncodeChar c ++ encode cs := rfl

@[simp] theorem encode_append (xs ys : List Char) : encode (xs ++ ys) = encode xs ++ encode ys :=
  List.flatMap_append

theorem encode_ne_nil {cs : List Char} (h : cs ≠ []) : encode cs ≠ [] := by
  obtain ⟨c, cs, rfl⟩ := List.exists_cons_of_ne_nil h
  have hpos := Char.utf8Size_pos c
  refine List.length_pos_iff.1 ?_
  rw [encode_cons, List.length_append, String.length_utf8EncodeChar]
  omega

/-- From a state, some bytes complete a character, and settle nothing before the last of them. -/
inductive Completes (c : Char) : State → List UInt8 → Prop
  /-- The last byte. -/
  | last {s : State} {b : UInt8} : step s b = ([some c], .start) → Completes c s [b]
  /-- A byte before the last. -/
  | more {s : State} {b : UInt8} {bs : List UInt8} {value missing : Nat} {low high : UInt8} :
      step s b = ([], .inside value missing low high) →
      Completes c (.inside value missing low high) bs → Completes c s (b :: bs)

theorem step_last {value : Nat} {low high b : UInt8} (hlow : low.toNat ≤ b.toNat)
    (hhigh : b.toNat ≤ high.toNat) :
    step (.inside value 1 low high) b = ([some (Char.ofNat (extend value b))], .start) := by
  rw [step, if_pos ⟨UInt8.le_iff_toNat_le.2 hlow, UInt8.le_iff_toNat_le.2 hhigh⟩,
    if_pos (Nat.le_refl 1)]

theorem step_more {value missing : Nat} {low high b : UInt8} (hlow : low.toNat ≤ b.toNat)
    (hhigh : b.toNat ≤ high.toNat) :
    step (.inside value (missing + 2) low high) b =
      ([], .inside (extend value b) (missing + 1) 0x80 0xBF) := by
  rw [step, if_pos ⟨UInt8.le_iff_toNat_le.2 hlow, UInt8.le_iff_toNat_le.2 hhigh⟩,
    if_neg (by omega)]
  rfl

/-- A byte after the first holds six bits. -/
theorem toNat_following (n : Nat) : (UInt8.ofNat (n % 64 + 0x80)).toNat = n % 64 + 0x80 := by
  rw [UInt8.toNat_ofNat']
  omega

theorem extend_following (value n : Nat) :
    extend value (UInt8.ofNat (n % 64 + 0x80)) = value * 64 + n % 64 := by
  rw [extend, toNat_following]
  omega

/-- The last two bytes of three or four. -/
theorem completes_two {c : Char} {value n : Nat} {low high : UInt8}
    (hlow : low.toNat ≤ n / 64 % 64 + 0x80) (hhigh : n / 64 % 64 + 0x80 ≤ high.toNat)
    (hc : Char.ofNat ((value * 64 + n / 64 % 64) * 64 + n % 64) = c) :
    Completes c (.inside value 2 low high)
      [UInt8.ofNat (n / 64 % 64 + 0x80), UInt8.ofNat (n % 64 + 0x80)] := by
  refine .more (step_more ?_ ?_) (.last ?_)
  · rwa [toNat_following]
  · rwa [toNat_following]
  · rw [step_last, extend_following, extend_following, hc]
    · rw [toNat_following]
      exact Nat.le_add_left _ _
    · rw [toNat_following]
      have hmod : n % 64 < 64 := Nat.mod_lt n (by decide)
      exact Nat.le_of_lt_succ (Nat.add_lt_add_right hmod 0x80)

theorem completes_encodeChar (c : Char) : Completes c .start (String.utf8EncodeChar c) := by
  have hvalid : c.val.toNat < 0xD800 ∨ 0xDFFF < c.val.toNat ∧ c.val.toNat < 0x110000 := c.valid
  have hc : Char.ofNat c.val.toNat = c := Char.ofNat_toNat c
  generalize hn : c.val.toNat = n at hvalid hc
  rw [String.utf8EncodeChar, hn]
  by_cases h1 : n ≤ 0x7F
  · rw [if_pos h1]
    have hb : (UInt8.ofNat n).toNat = n := by
      rw [UInt8.toNat_ofNat']
      omega
    refine .last ?_
    rw [step, first_ascii (by omega), hb, hc]
  · rw [if_neg h1]
    by_cases h2 : n ≤ 0x7FF
    · rw [if_pos h2]
      have hb : (UInt8.ofNat (n / 64 % 32 + 0xC0)).toNat = n / 64 + 0xC0 := by
        rw [UInt8.toNat_ofNat']
        omega
      refine .more (first_two (by omega) (by omega)) (.last ?_)
      rw [step_last, extend_following, hb, ← hc]
      · congr 4
        omega
      · rw [toNat_following]
        exact Nat.le_add_left _ _
      · rw [toNat_following]
        change _ ≤ 0xBF
        omega
    · rw [if_neg h2]
      by_cases h3 : n ≤ 0xFFFF
      · rw [if_pos h3]
        have hb : (UInt8.ofNat (n / 4096 % 16 + 0xE0)).toNat = n / 4096 + 0xE0 := by
          rw [UInt8.toNat_ofNat']
          omega
        refine .more (first_three (by omega) (by omega)) (completes_two ?_ ?_ ?_)
        · rw [hb]
          split
          · change 0xA0 ≤ _
            omega
          · exact Nat.le_add_left _ _
        · rw [hb]
          split
          · change _ ≤ 0x9F
            omega
          · change _ ≤ 0xBF
            omega
        · rw [hb, ← hc]
          congr 1
          omega
      · rw [if_neg h3]
        have hb : (UInt8.ofNat (n / 262144 % 8 + 0xF0)).toNat = n / 262144 + 0xF0 := by
          rw [UInt8.toNat_ofNat']
          omega
        refine .more (first_four (by omega) (by omega))
          (.more (step_more ?_ ?_) (completes_two ?_ ?_ ?_))
        · rw [hb, toNat_following]
          split
          · change 0x90 ≤ _
            omega
          · exact Nat.le_add_left _ _
        · rw [hb, toNat_following]
          split
          · change _ ≤ 0x8F
            omega
          · change _ ≤ 0xBF
            omega
        · exact Nat.le_add_left _ _
        · change _ ≤ 0xBF
          omega
        · rw [hb, extend_following, ← hc]
          congr 1
          omega

/-! ### Texts that are cut -/

/-- The start of a character's bytes, neither none nor all of them. -/
def Partial (tail : List UInt8) : Prop :=
  ∃ c more, String.utf8EncodeChar c = tail ++ more ∧ tail ≠ [] ∧ more ≠ []

theorem piecesFrom_cons (s : State) (b : UInt8) (bs : List UInt8) :
    Decoder.utf8.piecesFrom s (b :: bs) =
      (step s b).1 ++ Decoder.utf8.piecesFrom (step s b).2 bs :=
  rfl

/-- Once a character is complete, it is settled, and the decoder stands between characters. -/
theorem piecesFrom_of_completes {c : Char} {s : State} {bytes : List UInt8}
    (h : Completes c s bytes) (more : List UInt8) :
    Decoder.utf8.piecesFrom s (bytes ++ more) = some c :: Decoder.utf8.pieces more := by
  induction h with
  | last hstep =>
    rw [List.singleton_append, piecesFrom_cons, hstep]
    rfl
  | more hstep _ ih =>
    rw [List.cons_append, piecesFrom_cons, hstep]
    exact ih

/-- Before a character is complete, nothing is settled, and the end makes it an error. -/
theorem piecesFrom_of_partial {c : Char} {s : State} {tail more : List UInt8}
    (h : Completes c s (tail ++ more)) (htail : tail ≠ []) (hmore : more ≠ []) :
    Decoder.utf8.piecesFrom s tail = [none] := by
  induction tail generalizing s with
  | nil => exact absurd rfl htail
  | cons b tail ih =>
    rw [List.cons_append] at h
    generalize hrest : tail ++ more = rest at h
    cases h with
    | last hstep =>
      rw [List.append_eq_nil_iff] at hrest
      exact absurd hrest.2 hmore
    | more hstep hcompletes =>
      subst hrest
      rw [piecesFrom_cons, hstep]
      by_cases hnil : tail = []
      · rw [hnil]
        rfl
      · exact ih hcompletes hnil

/-- UTF-8 as a code. -/
def code : Decoder.utf8.Code where
  encodeChar := String.utf8EncodeChar
  encodeChar_ne_nil c := by
    have hpos := Char.utf8Size_pos c
    refine List.length_pos_iff.1 ?_
    rw [String.length_utf8EncodeChar]
    omega
  length_encodeChar_le c := by
    rw [String.length_utf8EncodeChar]
    exact c.utf8Size_le_four
  pieces_nil := rfl
  pieces_encodeChar c more := piecesFrom_of_completes (completes_encodeChar c) more
  pieces_start h hstart hmore := piecesFrom_of_partial (h ▸ completes_encodeChar _) hstart hmore

end Utf8

end BodyText
