import BodyText.Proofs.Utf8

/-!
# Bytes that are cut

What the decoder of UTF-8 makes of any bytes, texts or not, and of their parts. It accepts exactly the
bytes of texts (`Utf8.strict?_eq_some_iff`). Between two parts of some bytes a character may be begun:
its first bytes end the one part, and its next byte starts the other (`Utf8.Straddles`). The parts
decoded one by one in the degraded way give what the whole gives exactly when no character straddles
two of them (`Utf8.flatten_map_lossy_iff`).
-/

namespace BodyText

namespace Utf8

/-- Bytes that are those of a text. -/
def IsText (bytes : List UInt8) : Prop := ∃ text, bytes = encode text

/-! ### What is accepted -/

/-- The bytes that go on with the character that was begun. -/
def State.Accepts : State → UInt8 → Prop
  | .start, _ => False
  | .inside _ _ low high, b => low ≤ b ∧ b ≤ high

/-- A line end goes on with no character. -/
theorem State.Sound.not_accepts_lineEnd {s : State} (h : s.Sound) : ¬ s.Accepts lineEnd := by
  cases s with
  | start => exact not_false
  | inside value missing low high =>
    intro haccepts
    have hle : low.toNat ≤ 10 := UInt8.le_iff_toNat_le.1 haccepts.1
    have hlow := h.1
    omega

/-- Any other byte ends the character begun, as an error, and is read as a first byte. -/
theorem step_of_not_accepts {s : State} {b : UInt8} (h : ¬ s.Accepts b) :
    step s b = (finish s ++ (first b).1, (first b).2) := by
  cases s with
  | start => rfl
  | inside value missing low high =>
    rw [step, if_neg (by exact h)]
    rfl

/-- Inside a character, a byte that settles no error goes on with it. -/
theorem accepts_of_step {value missing : Nat} {low high b : UInt8}
    (h : none ∉ (step (.inside value missing low high) b).1) :
    State.Accepts (.inside value missing low high) b := by
  by_contra hnot
  rw [step_of_not_accepts hnot] at h
  exact h List.mem_cons_self

/-- A first byte is a character, or begins one that another byte goes on with, or is an error. -/
theorem first_cases (b : UInt8) :
    (∃ c, first b = ([some c], .start)) ∨
      (0xC2 ≤ b.toNat ∧
        ∃ value missing low high, first b = ([], .inside value missing low high)) ∨
      first b = ([none], .start) := by
  by_cases h1 : b.toNat ≤ 0x7F
  · exact .inl ⟨_, first_ascii h1⟩
  · by_cases h2 : 0xC2 ≤ b.toNat ∧ b.toNat ≤ 0xDF
    · exact .inr (.inl ⟨h2.1, _, _, _, _, first_two h2.1 h2.2⟩)
    · by_cases h3 : 0xE0 ≤ b.toNat ∧ b.toNat ≤ 0xEF
      · exact .inr (.inl ⟨by omega, _, _, _, _, first_three h3.1 h3.2⟩)
      · by_cases h4 : 0xF0 ≤ b.toNat ∧ b.toNat ≤ 0xF4
        · exact .inr (.inl ⟨by omega, _, _, _, _, first_four h4.1 h4.2⟩)
        · exact .inr (.inr (first_other (by omega)))

/-- A byte that goes on with a character completes it or leaves it begun. -/
theorem step_of_accepts {s : State} {b : UInt8} (h : s.Accepts b) :
    (∃ c, step s b = ([some c], .start)) ∨
      ∃ value missing low high, step s b = ([], .inside value missing low high) := by
  cases s with
  | start => exact h.elim
  | inside value missing low high =>
    rw [step, if_pos (by exact h)]
    split
    · exact .inl ⟨_, rfl⟩
    · exact .inr ⟨_, _, _, _, rfl⟩

/-- A byte settles a character, or begins one or goes on with it, or settles an error. -/
theorem step_cases (s : State) (b : UInt8) :
    (∃ c, step s b = ([some c], .start)) ∨
      (∃ value missing low high, step s b = ([], .inside value missing low high)) ∨
      none ∈ (step s b).1 := by
  by_cases haccepts : s.Accepts b
  · exact (step_of_accepts haccepts).imp_right .inl
  · rw [step_of_not_accepts haccepts]
    cases s with
    | start =>
      rcases first_cases b with ⟨c, hfirst⟩ | ⟨-, value, missing, low, high, hfirst⟩ | hfirst
      · exact .inl ⟨c, by rw [hfirst]; rfl⟩
      · exact .inr (.inl ⟨value, missing, low, high, by rw [hfirst]; rfl⟩)
      · exact .inr (.inr (by rw [hfirst]; exact List.mem_cons_self))
    | inside value missing low high => exact .inr (.inr List.mem_cons_self)

theorem Completes.step_of_ne_nil {c : Char} {s : State} {b : UInt8} {bs : List UInt8}
    (h : Completes c s (b :: bs)) (hbs : bs ≠ []) :
    ∃ value missing low high, step s b = ([], .inside value missing low high) ∧
      Completes c (.inside value missing low high) bs := by
  cases h with
  | last _ => exact absurd rfl hbs
  | more hstep hmore => exact ⟨_, _, _, _, hstep, hmore⟩

theorem Completes.none_not_mem {c : Char} {s : State} {b : UInt8} {bs : List UInt8}
    (h : Completes c s (b :: bs)) : none ∉ (step s b).1 := by
  cases h with
  | last hstep => simp [hstep]
  | more hstep _ => simp [hstep]

/-- The last byte of a character. -/
theorem Completes.of_one {c : Char} {value : Nat} {low high : UInt8} {bytes : List UInt8}
    (h : Completes c (.inside value 1 low high) bytes) :
    ∃ b, bytes = [b] ∧ low.toNat ≤ b.toNat ∧ b.toNat ≤ high.toNat ∧
      c = Char.ofNat (extend value b) := by
  cases h with
  | @last _ b hstep =>
    have haccepts : low ≤ b ∧ b ≤ high := accepts_of_step (by rw [hstep]; simp)
    have hlow := UInt8.le_iff_toNat_le.1 haccepts.1
    have hhigh := UInt8.le_iff_toNat_le.1 haccepts.2
    rw [step_last hlow hhigh] at hstep
    refine ⟨b, rfl, hlow, hhigh, ?_⟩
    simpa using hstep.symm
  | @more _ b bs _ _ _ _ hstep _ =>
    have haccepts : low ≤ b ∧ b ≤ high := accepts_of_step (by rw [hstep]; simp)
    rw [step, if_pos haccepts, if_pos (Nat.le_refl 1)] at hstep
    cases hstep

/-- A byte of a character before its last one. -/
theorem Completes.of_more {c : Char} {value missing : Nat} {low high : UInt8}
    {bytes : List UInt8} (h : Completes c (.inside value (missing + 2) low high) bytes) :
    ∃ b bs, bytes = b :: bs ∧ low.toNat ≤ b.toNat ∧ b.toNat ≤ high.toNat ∧
      Completes c (.inside (extend value b) (missing + 1) 0x80 0xBF) bs := by
  cases h with
  | @last _ b hstep =>
    have haccepts : low ≤ b ∧ b ≤ high := accepts_of_step (by rw [hstep]; simp)
    rw [step, if_pos haccepts, if_neg (by omega)] at hstep
    cases hstep
  | @more _ b bs _ _ _ _ hstep hmore =>
    have haccepts : low ≤ b ∧ b ≤ high := accepts_of_step (by rw [hstep]; simp)
    have hlow := UInt8.le_iff_toNat_le.1 haccepts.1
    have hhigh := UInt8.le_iff_toNat_le.1 haccepts.2
    rw [step_more hlow hhigh] at hstep
    cases hstep
    exact ⟨b, bs, rfl, hlow, hhigh, hmore⟩

/-- The bytes of a character, from its number. -/
theorem eq_encodeChar {n : Nat} (hvalid : n.isValidChar) {bytes : List UInt8}
    (h : bytes.map UInt8.toNat =
      if n ≤ 0x7F then [n]
      else if n ≤ 0x7FF then [n / 64 + 0xC0, n % 64 + 0x80]
      else if n ≤ 0xFFFF then [n / 4096 + 0xE0, n / 64 % 64 + 0x80, n % 64 + 0x80]
      else [n / 262144 + 0xF0, n / 4096 % 64 + 0x80, n / 64 % 64 + 0x80, n % 64 + 0x80]) :
    bytes = String.utf8EncodeChar (Char.ofNat n) := by
  have hn : (Char.ofNat n).val.toNat = n := by
    have hchar := Char.toNat_ofNat n
    rwa [if_pos hvalid] at hchar
  have hbound : n < 0x110000 := by
    rcases hvalid with hlt | ⟨-, hlt⟩
    · omega
    · exact hlt
  refine List.map_injective_iff.2 (fun a b => UInt8.toNat_inj.1) ?_
  rw [h, String.utf8EncodeChar, hn]
  have following (m : Nat) : (m % 64 + 0x80) % 2 ^ 8 = m % 64 + 0x80 := by omega
  split
  · simp only [List.map_cons, List.map_nil, UInt8.toNat_ofNat', List.cons.injEq, and_true]
    omega
  · split
    · simp only [List.map_cons, List.map_nil, UInt8.toNat_ofNat', List.cons.injEq, and_true,
        following]
      omega
    · split
      · simp only [List.map_cons, List.map_nil, UInt8.toNat_ofNat', List.cons.injEq, and_true,
          following]
        omega
      · simp only [List.map_cons, List.map_nil, UInt8.toNat_ofNat', List.cons.injEq, and_true,
          following]
        omega

theorem Completes.of_first {c : Char} {b : UInt8} {bs : List UInt8} {value missing : Nat}
    {low high : UInt8} (h : Completes c .start (b :: bs))
    (hfirst : first b = ([], .inside value missing low high)) :
    Completes c (.inside value missing low high) bs := by
  cases h with
  | last hstep =>
    rw [step, hfirst] at hstep
    cases hstep
  | more hstep hmore =>
    rw [step, hfirst] at hstep
    cases hstep
    exact hmore

/-- **What completes a character are its bytes.** -/
theorem eq_encodeChar_of_completes {c : Char} {bytes : List UInt8}
    (h : Completes c .start bytes) : bytes = String.utf8EncodeChar c := by
  obtain ⟨b, bs, rfl⟩ : ∃ b bs, bytes = b :: bs := by
    cases h <;> exact ⟨_, _, rfl⟩
  by_cases h1 : b.toNat ≤ 0x7F
  · obtain ⟨rfl, rfl⟩ : bs = [] ∧ c = Char.ofNat b.toNat := by
      cases h with
      | last hstep =>
        rw [step, first_ascii h1] at hstep
        exact ⟨rfl, by simpa using hstep.symm⟩
      | more hstep _ =>
        rw [step, first_ascii h1] at hstep
        cases hstep
    refine eq_encodeChar (.inl (by omega)) ?_
    rw [if_pos h1]
    rfl
  · by_cases h2 : 0xC2 ≤ b.toNat ∧ b.toNat ≤ 0xDF
    · obtain ⟨b1, rfl, hlow, hhigh, rfl⟩ := (h.of_first (first_two h2.1 h2.2)).of_one
      change 0x80 ≤ b1.toNat at hlow
      change b1.toNat ≤ 0xBF at hhigh
      unfold extend
      refine eq_encodeChar (.inl (by omega)) ?_
      rw [if_neg (by omega), if_pos (by omega)]
      simp only [List.map_cons, List.map_nil, List.cons.injEq, and_true]
      omega
    · by_cases h3 : 0xE0 ≤ b.toNat ∧ b.toNat ≤ 0xEF
      · obtain ⟨b1, _, rfl, hlow1, hhigh1, hmore⟩ :=
          (h.of_first (first_three h3.1 h3.2)).of_more
        obtain ⟨b2, rfl, hlow2, hhigh2, rfl⟩ := hmore.of_one
        have hfirst : 0x80 ≤ b1.toNat ∧ (b.toNat = 0xE0 → 0xA0 ≤ b1.toNat) := by
          split at hlow1 <;> simp at hlow1 <;> omega
        have hlast : b1.toNat ≤ 0xBF ∧ (b.toNat = 0xED → b1.toNat ≤ 0x9F) := by
          split at hhigh1 <;> simp at hhigh1 <;> omega
        change 0x80 ≤ b2.toNat at hlow2
        change b2.toNat ≤ 0xBF at hhigh2
        unfold extend
        refine eq_encodeChar (by rw [Nat.isValidChar]; omega) ?_
        rw [if_neg (by omega), if_neg (by omega), if_pos (by omega)]
        simp only [List.map_cons, List.map_nil, List.cons.injEq, and_true]
        omega
      · by_cases h4 : 0xF0 ≤ b.toNat ∧ b.toNat ≤ 0xF4
        · obtain ⟨b1, _, rfl, hlow1, hhigh1, hmore⟩ :=
            (h.of_first (first_four h4.1 h4.2)).of_more
          obtain ⟨b2, _, rfl, hlow2, hhigh2, hmore⟩ := hmore.of_more
          obtain ⟨b3, rfl, hlow3, hhigh3, rfl⟩ := hmore.of_one
          have hfirst : 0x80 ≤ b1.toNat ∧ (b.toNat = 0xF0 → 0x90 ≤ b1.toNat) := by
            split at hlow1 <;> simp at hlow1 <;> omega
          have hlast : b1.toNat ≤ 0xBF ∧ (b.toNat = 0xF4 → b1.toNat ≤ 0x8F) := by
            split at hhigh1 <;> simp at hhigh1 <;> omega
          change 0x80 ≤ b2.toNat at hlow2
          change b2.toNat ≤ 0xBF at hhigh2
          change 0x80 ≤ b3.toNat at hlow3
          change b3.toNat ≤ 0xBF at hhigh3
          unfold extend
          refine eq_encodeChar (by rw [Nat.isValidChar]; omega) ?_
          rw [if_neg (by omega), if_neg (by omega), if_neg (by omega)]
          simp only [List.map_cons, List.map_nil, List.cons.injEq, and_true]
          omega
        · -- no character starts with any other byte
          have hfirst : first b = ([none], .start) := first_other (by omega)
          have hnone := h.none_not_mem
          rw [step, hfirst] at hnone
          exact absurd List.mem_cons_self hnone

/-! ### Texts -/

/-- Bytes without an error have a character at their start. -/
theorem exists_completes {s : State} {bytes : List UInt8} (hs : s ≠ .start ∨ bytes ≠ [])
    (h : none ∉ Decoder.utf8.piecesFrom s bytes) :
    ∃ c bs rest, bytes = bs ++ rest ∧ Completes c s bs := by
  induction bytes generalizing s with
  | nil =>
    cases s with
    | start => simp at hs
    | inside value missing low high => exact absurd List.mem_cons_self h
  | cons b bytes ih =>
    rw [piecesFrom_cons, List.mem_append, not_or] at h
    rcases step_cases s b with ⟨c, hstep⟩ | ⟨value, missing, low, high, hstep⟩ | herror
    · exact ⟨c, [b], bytes, rfl, .last hstep⟩
    · rw [hstep] at h
      obtain ⟨c, bs, rest, rfl, hcompletes⟩ :=
        ih (s := .inside value missing low high) (.inl nofun) h.2
      exact ⟨c, b :: bs, rest, rfl, .more hstep hcompletes⟩
    · exact absurd herror h.1

theorem isText_of_pieces {bytes : List UInt8} (h : none ∉ Decoder.utf8.pieces bytes) :
    IsText bytes := by
  induction hlen : bytes.length using Nat.strongRecOn generalizing bytes with
  | ind n ih =>
    by_cases hnil : bytes = []
    · exact ⟨[], hnil⟩
    · obtain ⟨c, bs, rest, rfl, hcompletes⟩ := exists_completes (.inr hnil) h
      rw [Decoder.pieces, piecesFrom_of_completes hcompletes] at h
      obtain rfl := eq_encodeChar_of_completes hcompletes
      have hpos := List.length_pos_iff.2 (code.encodeChar_ne_nil c)
      change 0 < (String.utf8EncodeChar c).length at hpos
      rw [List.length_append] at hlen
      obtain ⟨text, rfl⟩ := ih rest.length (by omega) (fun hmem => h (.tail _ hmem)) rfl
      exact ⟨c :: text, rfl⟩

/-- **The decoder accepts the bytes of texts**, and no others. -/
theorem strict?_eq_some_iff {bytes : List UInt8} {text : List Char} :
    Decoder.utf8.strict? bytes = some text ↔ bytes = encode text := by
  constructor
  · intro h
    have hnone : none ∉ Decoder.utf8.pieces bytes := by
      rw [Decoder.strict?, characters?] at h
      split at h
      · rename_i hall
        exact fun hmem => by simpa using List.all_eq_true.1 hall _ hmem
      · cases h
    obtain ⟨text', rfl⟩ := isText_of_pieces hnone
    have htext' := code.strict?_encode text'
    change Decoder.utf8.strict? (encode text') = some text' at htext'
    rw [htext'] at h
    rw [Option.some.inj h]
  · rintro rfl
    exact code.strict?_encode text

theorem strict?_eq_none_iff {bytes : List UInt8} :
    Decoder.utf8.strict? bytes = none ↔ ¬ IsText bytes := by
  rw [Option.eq_none_iff_forall_ne_some, IsText, not_exists]
  exact forall_congr' fun text => not_congr strict?_eq_some_iff

theorem isText_iff {bytes : List UInt8} : IsText bytes ↔ none ∉ Decoder.utf8.pieces bytes := by
  constructor
  · rintro ⟨text, rfl⟩
    have hpieces := code.pieces_encode_append text []
    rw [List.append_nil, code.pieces_nil, List.append_nil] at hpieces
    change Decoder.utf8.pieces (encode text) = _ at hpieces
    simp [hpieces]
  · exact isText_of_pieces

/-- Behind a text, what is a text does not depend on it. -/
theorem isText_append_iff {xs : List UInt8} (h : IsText xs) (ys : List UInt8) :
    IsText (xs ++ ys) ↔ IsText ys := by
  obtain ⟨text, rfl⟩ := h
  have hpieces := code.pieces_encode_append text ys
  change Decoder.utf8.pieces (encode text ++ ys) = _ at hpieces
  rw [isText_iff, isText_iff, hpieces]
  simp

/-! ### Inside a character -/

/-- Where the decoder stands after some bytes. -/
def stateAfter (xs : List UInt8) : State := (Decoder.utf8.read .start xs).2

theorem sound_stateAfter (xs : List UInt8) : (stateAfter xs).Sound := (sound_read_start xs).1

theorem read_append (s : State) (xs ys : List UInt8) :
    (Decoder.utf8.read s (xs ++ ys)).2 =
      (Decoder.utf8.read (Decoder.utf8.read s xs).2 ys).2 := by
  induction xs generalizing s with
  | nil => rfl
  | cons x xs ih => exact ih _

/-- Inside a character, the last bytes are those that began it. -/
theorem exists_begun (xs : List UInt8) :
    stateAfter xs = .start ∨
      ∃ start, start ≠ [] ∧ start <:+ xs ∧
        ∀ c bs, Completes c (stateAfter xs) bs → Completes c .start (start ++ bs) := by
  induction xs using List.reverseRecOn with
  | nil => exact .inl rfl
  | append_singleton xs b ih =>
    have hstate : stateAfter (xs ++ [b]) = (step (stateAfter xs) b).2 := read_append _ xs [b]
    rw [hstate]
    by_cases haccepts : (stateAfter xs).Accepts b
    · -- the byte goes on with the character that was begun
      have hinside : stateAfter xs ≠ .start := fun hstart => by rwa [hstart] at haccepts
      obtain ⟨start, hne, hsuffix, hbegun⟩ := ih.resolve_left hinside
      rcases step_of_accepts haccepts with ⟨c, hstep⟩ | ⟨value, missing, low, high, hstep⟩
      · left
        rw [hstep]
      · right
        rw [hstep]
        refine ⟨start ++ [b], by simp, List.suffix_append_self_iff.2 hsuffix, fun c bs h => ?_⟩
        rw [List.append_assoc]
        exact hbegun c _ (.more hstep h)
    · -- the byte may begin another character
      rw [step_of_not_accepts haccepts]
      rcases first_cases b with ⟨c, hfirst⟩ | ⟨-, value, missing, low, high, hfirst⟩ | hfirst
      · left
        rw [hfirst]
      · right
        rw [hfirst]
        exact ⟨[b], by simp, List.suffix_append xs [b], fun c bs h => .more hfirst h⟩
      · left
        rw [hfirst]

/-- A byte that goes on with a character is one of the bytes of some character. -/
theorem exists_completes_of_accepts {s : State} {b : UInt8} (h : s.Accepts b) :
    ∃ c bs, Completes c s (b :: bs) := by
  cases s with
  | start => exact h.elim
  | inside value missing low high =>
    induction missing using Nat.strongRecOn generalizing value low high b with
    | ind missing ih =>
      have hb : low ≤ b ∧ b ≤ high := h
      by_cases hm : missing ≤ 1
      · refine ⟨Char.ofNat (extend value b), [], .last ?_⟩
        rw [step, if_pos hb, if_pos hm]
      · have hstep : step (.inside value missing low high) b =
            ([], .inside (extend value b) (missing - 1) 0x80 0xBF) := by
          rw [step, if_pos hb, if_neg hm]
        have hnext : State.Accepts (.inside (extend value b) (missing - 1) 0x80 0xBF) 0x80 := by
          constructor <;> decide
        obtain ⟨c, bs, hcompletes⟩ := ih (missing - 1) (by omega) _ _ _ hnext
        exact ⟨c, 0x80 :: bs, .more hstep hcompletes⟩

/-- The first bytes of a character lead to where its next byte is accepted. -/
theorem Completes.accepts {c : Char} {s : State} {start later : List UInt8} {b : UInt8}
    (h : Completes c s (start ++ b :: later)) (hstart : start ≠ []) :
    (Decoder.utf8.read s start).2.Accepts b := by
  induction start generalizing s with
  | nil => exact absurd rfl hstart
  | cons first start ih =>
    obtain ⟨value, missing, low, high, hstep, hmore⟩ := h.step_of_ne_nil (by simp)
    have hread : (Decoder.utf8.read s (first :: start)).2 =
        (Decoder.utf8.read (step s first).2 start).2 := rfl
    rw [hread, hstep]
    by_cases hnil : start = []
    · subst hnil
      exact accepts_of_step hmore.none_not_mem
    · exact ih hmore hnil

/-! ### Characters that are cut -/

/-- A character is begun at the end of some bytes, and the next byte of it stands at the start of
others. -/
def Straddles (xs ys : List UInt8) : Prop :=
  ∃ c start b later, String.utf8EncodeChar c = start ++ b :: later ∧ start ≠ [] ∧ start <:+ xs ∧
    ys.head? = some b

theorem straddles_congr {xs ys ys' : List UInt8} (h : ys.head? = ys'.head?) :
    Straddles xs ys ↔ Straddles xs ys' := by
  rw [Straddles, Straddles, h]

/-- A character straddles two parts exactly when the decoder, behind the one part, goes on with it at
the first byte of the other. -/
theorem straddles_iff {xs ys : List UInt8} :
    Straddles xs ys ↔ ∃ b, ys.head? = some b ∧ (stateAfter xs).Accepts b := by
  constructor
  · rintro ⟨c, start, b, later, hchar, hstart, ⟨before, rfl⟩, hhead⟩
    refine ⟨b, hhead, ?_⟩
    have hcompletes : Completes c .start (start ++ b :: later) := hchar ▸ completes_encodeChar c
    -- the first byte of a character is read alike in every state
    have hsame : stateAfter (before ++ start) = stateAfter start := by
      obtain ⟨lead, start, rfl⟩ := List.exists_cons_of_ne_nil hstart
      obtain ⟨value, missing, low, high, hstep, -⟩ := hcompletes.step_of_ne_nil (by simp)
      have hfirst : first lead = ([], .inside value missing low high) := hstep
      have hnot : ¬ (stateAfter before).Accepts lead := by
        intro haccepts
        have hlead : 0xC2 ≤ lead.toNat := by
          rcases first_cases lead with ⟨c, hfirst'⟩ | ⟨hlead, -⟩ | hfirst'
          · rw [hfirst] at hfirst'
            cases hfirst'
          · exact hlead
          · rw [hfirst] at hfirst'
            cases hfirst'
        have hsound := sound_stateAfter before
        cases hs : stateAfter before with
        | start =>
          rw [hs] at haccepts
          exact haccepts
        | inside value missing low high =>
          rw [hs] at haccepts hsound
          have hle := UInt8.le_iff_toNat_le.1 haccepts.2
          have hhigh := hsound.2.1
          omega
      have hstate : stateAfter (before ++ lead :: start) =
          (Decoder.utf8.read (step (stateAfter before) lead).2 start).2 :=
        read_append _ before (lead :: start)
      rw [step_of_not_accepts hnot] at hstate
      exact hstate
    rw [hsame]
    exact hcompletes.accepts hstart
  · rintro ⟨b, hhead, haccepts⟩
    obtain ⟨c, bs, hcompletes⟩ := exists_completes_of_accepts haccepts
    rcases exists_begun xs with hstart | ⟨start, hne, hsuffix, hbegun⟩
    · rw [hstart] at haccepts
      exact haccepts.elim
    · exact ⟨c, start, b, bs, (eq_encodeChar_of_completes (hbegun c _ hcompletes)).symm, hne,
        hsuffix, hhead⟩

/-- Behind a text no character is begun. -/
theorem stateAfter_of_isText {xs : List UInt8} (h : IsText xs) : stateAfter xs = .start := by
  rw [isText_iff, Decoder.pieces, Decoder.piecesFrom_eq, List.mem_append, not_or] at h
  have hfinish : none ∉ finish (stateAfter xs) := h.2
  cases hs : stateAfter xs with
  | start => rfl
  | inside value missing low high =>
    rw [hs] at hfinish
    exact absurd List.mem_cons_self hfinish

/-- Behind a line end no character is begun. -/
theorem stateAfter_of_lineEnd {xs : List UInt8} (h : xs.getLast? = some lineEnd) :
    stateAfter xs = .start := by
  obtain ⟨before, rfl⟩ := List.getLast?_eq_some_iff.1 h
  have hstate : stateAfter (before ++ [lineEnd]) = (step (stateAfter before) lineEnd).2 :=
    read_append _ before [lineEnd]
  rw [hstate, step_lineEnd (sound_stateAfter before)]

/-! ### Decoding part by part -/

theorem pieces_append (xs ys : List UInt8) :
    Decoder.utf8.pieces (xs ++ ys) =
      (Decoder.utf8.read .start xs).1 ++ Decoder.utf8.piecesFrom (stateAfter xs) ys :=
  Decoder.utf8.piecesFrom_append .start xs ys

theorem pieces_eq (xs : List UInt8) :
    Decoder.utf8.pieces xs = (Decoder.utf8.read .start xs).1 ++ finish (stateAfter xs) :=
  Decoder.utf8.piecesFrom_eq .start xs

/-- Two parts that no character straddles are decoded apart as they are together. -/
theorem pieces_append_of_not_straddles {xs ys : List UInt8} (h : ¬ Straddles xs ys) :
    Decoder.utf8.pieces (xs ++ ys) = Decoder.utf8.pieces xs ++ Decoder.utf8.pieces ys := by
  have hys : Decoder.utf8.piecesFrom (stateAfter xs) ys =
      finish (stateAfter xs) ++ Decoder.utf8.pieces ys := by
    cases ys with
    | nil => exact (List.append_nil _).symm
    | cons b ys =>
      have hnot : ¬ (stateAfter xs).Accepts b := fun haccepts =>
        h (straddles_iff.2 ⟨b, rfl, haccepts⟩)
      rw [piecesFrom_cons, step_of_not_accepts hnot, List.append_assoc]
      rfl
  rw [pieces_append, hys, ← List.append_assoc, ← pieces_eq]

/-- A byte that a character goes on with starts none. -/
theorem first_of_accepts {s : State} (hs : s.Sound) {b : UInt8} (h : s.Accepts b) :
    first b = ([none], .start) := by
  cases s with
  | start => exact h.elim
  | inside value missing low high =>
    have hlow := UInt8.le_iff_toNat_le.1 h.1
    have hhigh := UInt8.le_iff_toNat_le.1 h.2
    have hsound := hs.1
    have hsound' := hs.2.1
    exact first_other (.inl ⟨by omega, by omega⟩)

/-- From inside a character there are no more pieces than there are without it, and it itself; and
fewer where it goes on. -/
theorem length_piecesFrom_le {s : State} (hs : s.Sound) (ys : List UInt8) :
    (Decoder.utf8.piecesFrom s ys).length ≤
        (finish s).length + (Decoder.utf8.pieces ys).length ∧
      ∀ b, ys.head? = some b → s.Accepts b →
        (Decoder.utf8.piecesFrom s ys).length <
          (finish s).length + (Decoder.utf8.pieces ys).length := by
  induction ys generalizing s with
  | nil => exact ⟨Nat.le_add_right _ _, fun b hb => by cases hb⟩
  | cons b ys ih =>
    have hpieces : Decoder.utf8.pieces (b :: ys) =
        (first b).1 ++ Decoder.utf8.piecesFrom (first b).2 ys := rfl
    by_cases haccepts : s.Accepts b
    · have hlt : (Decoder.utf8.piecesFrom s (b :: ys)).length <
          (finish s).length + (Decoder.utf8.pieces (b :: ys)).length := by
        rw [hpieces, first_of_accepts hs haccepts, piecesFrom_cons]
        cases s with
        | start => exact haccepts.elim
        | inside value missing low high =>
          have hb : low ≤ b ∧ b ≤ high := haccepts
          by_cases hm : missing ≤ 1
          · have hstep : step (.inside value missing low high) b =
                ([some (Char.ofNat (extend value b))], .start) := by
              rw [step, if_pos hb, if_pos hm]
            rw [hstep]
            simp only [List.length_append, List.length_singleton, finish]
            omega
          · have hstep : step (.inside value missing low high) b =
                ([], .inside (extend value b) (missing - 1) 0x80 0xBF) := by
              rw [step, if_pos hb, if_neg hm]
            have hsound := (sound_step hs b).1
            rw [hstep] at hsound ⊢
            have hle := (ih hsound).1
            change _ ≤ 1 + (Decoder.utf8.pieces ys).length at hle
            change _ < 1 + ([none] ++ Decoder.utf8.pieces ys).length
            rw [List.nil_append, List.length_append, List.length_singleton]
            omega
      exact ⟨Nat.le_of_lt hlt, fun _ _ _ => hlt⟩
    · refine ⟨Nat.le_of_eq ?_, fun b' hb' h => ?_⟩
      · rw [hpieces, piecesFrom_cons, step_of_not_accepts haccepts]
        simp only [List.length_append]
        omega
      · obtain rfl : b = b' := Option.some.inj hb'
        exact absurd h haccepts

/-- A character that straddles two parts is decoded as more when they are apart. -/
theorem length_pieces_append_lt {xs ys : List UInt8} (h : Straddles xs ys) :
    (Decoder.utf8.pieces (xs ++ ys)).length <
      (Decoder.utf8.pieces xs).length + (Decoder.utf8.pieces ys).length := by
  obtain ⟨b, hhead, haccepts⟩ := straddles_iff.1 h
  have hlt := (length_piecesFrom_le (sound_stateAfter xs) ys).2 b hhead haccepts
  rw [pieces_append, pieces_eq xs, List.length_append, List.length_append]
  omega

theorem length_lossy (xs : List UInt8) :
    (Decoder.utf8.lossy xs).length = (Decoder.utf8.pieces xs).length :=
  List.length_map _

theorem length_lossy_append_le (xs ys : List UInt8) :
    (Decoder.utf8.lossy (xs ++ ys)).length ≤
      (Decoder.utf8.lossy xs).length + (Decoder.utf8.lossy ys).length := by
  have hle := (length_piecesFrom_le (sound_stateAfter xs) ys).1
  rw [length_lossy, length_lossy, length_lossy, pieces_append, pieces_eq xs, List.length_append,
    List.length_append]
  omega

theorem length_lossy_flatten_le (parts : List (List UInt8)) :
    (Decoder.utf8.lossy parts.flatten).length ≤
      (parts.map Decoder.utf8.lossy).flatten.length := by
  induction parts with
  | nil => exact Nat.le_refl 0
  | cons part parts ih =>
    have hle := length_lossy_append_le part parts.flatten
    rw [List.flatten_cons, List.map_cons, List.flatten_cons, List.length_append]
    omega

/-- **Decoding part by part** gives the text of the whole exactly when no character straddles two
parts. -/
theorem flatten_map_lossy_iff {parts : List (List UInt8)} (h : [] ∉ parts) :
    (parts.map Decoder.utf8.lossy).flatten = Decoder.utf8.lossy parts.flatten ↔
      parts.IsChain fun xs ys => ¬ Straddles xs ys := by
  induction parts with
  | nil => exact iff_of_true rfl .nil
  | cons part parts ih =>
    rw [List.mem_cons, not_or] at h
    have hhead : (∀ next ∈ parts.head?, ¬ Straddles part next) ↔
        ¬ Straddles part parts.flatten := by
      cases parts with
      | nil =>
        refine iff_of_true (fun next hnext => by cases hnext) ?_
        rintro ⟨c, start, b, later, -, -, -, hb⟩
        cases hb
      | cons next parts =>
        obtain ⟨b, bs, rfl⟩ := List.exists_cons_of_ne_nil
          fun hnil : next = [] => h.2 (hnil ▸ List.mem_cons_self)
        have hfirst : Straddles part ((b :: bs) :: parts).flatten ↔ Straddles part (b :: bs) :=
          straddles_congr rfl
        rw [hfirst]
        simp
    rw [List.isChain_cons, hhead, ← ih h.2, List.map_cons, List.flatten_cons, List.flatten_cons]
    constructor
    · intro heq
      have hlen := congrArg List.length heq
      have hle := length_lossy_flatten_le parts
      have hnot : ¬ Straddles part parts.flatten := by
        intro hstraddles
        have hlt := length_pieces_append_lt hstraddles
        rw [List.length_append, length_lossy, length_lossy] at hlen
        rw [length_lossy] at hle
        omega
      refine ⟨hnot, ?_⟩
      rw [Decoder.lossy, Decoder.lossy, pieces_append_of_not_straddles hnot, replaced_append] at heq
      exact List.append_cancel_left heq
    · rintro ⟨hnot, heq⟩
      rw [heq, Decoder.lossy, Decoder.lossy, Decoder.lossy, pieces_append_of_not_straddles hnot,
        replaced_append]

end Utf8

end BodyText
