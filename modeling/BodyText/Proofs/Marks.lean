import BodyText.Markup.Item

/-!
# Marks in a text

What a text starts with may change when more of it arrives: a block is told by an opening that is
there as a whole, and the line end CR LF is one blank only when both of its characters are there.
These are the marks. Where no mark is cut in two between the text at hand and what follows it
(`Severs`), the text at hand tells what it starts with (`Head.of?_append`).
-/

namespace BodyText

/-- A text in lower case. -/
def lower (cs : List Char) : List Char := cs.map Char.toLower

@[simp] theorem lower_append (xs ys : List Char) : lower (xs ++ ys) = lower xs ++ lower ys :=
  List.map_append

@[simp] theorem length_lower (cs : List Char) : (lower cs).length = cs.length := List.length_map _

/-- A character stays as it is, unless it is a letter in upper case. -/
theorem toLower_cases (c : Char) :
    c.toLower = c ∨ 65 ≤ c.toNat ∧ c.toNat ≤ 90 ∧ c.toLower.toNat = c.toNat + 32 := by
  delta Char.toLower
  split
  · rename_i hupper
    have hlow : 65 ≤ c.toNat := UInt32.le_iff_toNat_le.1 hupper.1
    have hhigh : c.toNat ≤ 90 := UInt32.le_iff_toNat_le.1 hupper.2
    refine .inr ⟨hlow, hhigh, ?_⟩
    change (c.toNat + 32) % 2 ^ 32 = c.toNat + 32
    omega
  · exact .inl rfl

/-- Only a letter in lower case may have been one in upper case. -/
theorem eq_of_toLower {c d : Char} (hd : d.isLower = false) (h : c.toLower = d) : c = d := by
  rcases toLower_cases c with hsame | ⟨hlow, hhigh, hlower⟩
  · exact hsame.symm.trans h
  · rw [h] at hlower
    have hletter : d.isLower = true := by
      delta Char.isLower
      rw [Bool.and_eq_true, decide_eq_true_eq, decide_eq_true_eq]
      constructor
      · exact UInt32.le_iff_toNat_le.2 (by change 97 ≤ d.toNat; omega)
      · exact UInt32.le_iff_toNat_le.2 (by change d.toNat ≤ 122; omega)
    rw [hd] at hletter
    cases hletter

/-! ### Splitting -/

theorem splitAt?_cons (d c : Char) (cs : List Char) :
    splitAt? d (c :: cs) =
      if c = d then some ([], cs)
      else (splitAt? d cs).map fun parts => (c :: parts.1, parts.2) := by
  by_cases h : c = d
  · simp [splitAt?, h]
  · rw [if_neg h, splitAt?, splitAt?]
    simp only [List.dropWhile_cons, List.takeWhile_cons, ne_eq, h, not_false_eq_true, decide_true,
      if_true]
    split <;> rfl

theorem splitAt?_eq_none_iff {d : Char} {cs : List Char} : splitAt? d cs = none ↔ d ∉ cs := by
  induction cs with
  | nil => simp [splitAt?]
  | cons c cs ih =>
    rw [splitAt?_cons]
    by_cases h : c = d
    · simp [h]
    · simp [h, ih, Ne.symm h]

/-- A text is split at the first `d` in it. -/
theorem splitAt?_of_not_mem {d : Char} {cs : List Char} (h : d ∉ cs) (rest : List Char) :
    splitAt? d (cs ++ d :: rest) = some (cs, rest) := by
  induction cs with
  | nil => rw [List.nil_append, splitAt?_cons, if_pos rfl]
  | cons c cs ih =>
    obtain ⟨hc, hcs⟩ := not_or.1 (mt List.mem_cons.2 h)
    rw [List.cons_append, splitAt?_cons, if_neg (Ne.symm hc), ih hcs, Option.map_some]

/-- What follows a text does not change where it is first split. -/
theorem splitAt?_append {d : Char} {cs : List Char} (h : d ∈ cs) (more : List Char) :
    splitAt? d (cs ++ more) = (splitAt? d cs).map fun parts => (parts.1, parts.2 ++ more) := by
  induction cs with
  | nil => exact absurd h List.not_mem_nil
  | cons c cs ih =>
    rw [List.cons_append, splitAt?_cons, splitAt?_cons]
    by_cases hc : c = d
    · rw [if_pos hc, if_pos hc, Option.map_some]
    · have hmem : d ∈ cs := (List.mem_cons.1 h).resolve_left (Ne.symm hc)
      rw [if_neg hc, if_neg hc, ih hmem, Option.map_map, Option.map_map]
      rfl

/-- What the first of two lists does not have is in the second one. -/
theorem exists_of_append_eq {α : Type} {d : α} {xs ys before after : List α} (hxs : d ∉ xs)
    (h : xs ++ ys = before ++ d :: after) : ∃ more, ys = more ++ d :: after := by
  rcases List.append_eq_append_iff.1 h with ⟨more, -, hys⟩ | ⟨more, rfl, hmore⟩
  · exact ⟨more, hys⟩
  · cases more with
    | nil => exact ⟨[], hmore.symm⟩
    | cons t ts =>
      obtain ⟨rfl, -⟩ := List.cons.inj hmore
      exact absurd (List.mem_append_right before List.mem_cons_self) hxs

/-- What follows the first `d` when none stands in the text before. -/
theorem suffix_of_splitAt? {d : Char} {xs ys before after : List Char} (hxs : d ∉ xs)
    (h : splitAt? d (xs ++ ys) = some (before, after)) : after <:+ ys := by
  obtain ⟨more, rfl⟩ := exists_of_append_eq hxs (eq_append_of_splitAt? h)
  exact ⟨more ++ [d], by simp⟩

/-! ### Markers -/

theorem after?_eq_some_iff {marker cs rest : List Char} :
    after? marker cs = some rest ↔ ∃ head, cs = head ++ rest ∧ lower head = marker := by
  constructor
  · intro h
    fun_induction after? marker cs with
    | case1 cs =>
      cases h
      exact ⟨[], rfl, rfl⟩
    | case2 => cases h
    | case3 ms c cs ih =>
      obtain ⟨head, rfl, rfl⟩ := ih h
      exact ⟨c :: head, rfl, rfl⟩
    | case4 => cases h
  · rintro ⟨head, rfl, rfl⟩
    induction head with
    | nil => rfl
    | cons c head ih =>
      change after? (c.toLower :: lower head) (c :: (head ++ rest)) = some rest
      rw [after?, if_pos rfl, ih]

theorem after?_append_of_some {marker cs rest : List Char} (h : after? marker cs = some rest)
    (more : List Char) : after? marker (cs ++ more) = some (rest ++ more) := by
  obtain ⟨head, rfl, hhead⟩ := after?_eq_some_iff.1 h
  exact after?_eq_some_iff.2 ⟨head, List.append_assoc .., hhead⟩

/-- The text after a marker is the rest of a text in which the marker stands. -/
theorem eq_append_of_past? {marker cs rest : List Char} (h : past? marker cs = some rest) :
    ∃ before occurrence, cs = before ++ occurrence ++ rest ∧ lower occurrence = marker := by
  induction cs with
  | nil =>
    obtain ⟨head, hcs, hhead⟩ := after?_eq_some_iff.1 h
    exact ⟨[], head, by simpa using hcs, hhead⟩
  | cons c cs ih =>
    rw [past?] at h
    split at h
    · rename_i rest' hafter
      cases h
      obtain ⟨head, hcs, hhead⟩ := after?_eq_some_iff.1 hafter
      exact ⟨[], head, by simpa using hcs, hhead⟩
    · obtain ⟨before, occurrence, rfl, hocc⟩ := ih h
      exact ⟨c :: before, occurrence, rfl, hocc⟩

theorem past?_of_after? {marker cs rest : List Char} (h : after? marker cs = some rest) :
    past? marker cs = some rest := by
  cases cs with
  | nil => exact h
  | cons c cs => rw [past?, h]

/-- A marker that stands in a text is found. -/
theorem past?_ne_none (before occurrence rest : List Char) :
    past? (lower occurrence) (before ++ occurrence ++ rest) ≠ none := by
  induction before with
  | nil =>
    have hafter : after? (lower occurrence) (occurrence ++ rest) = some rest :=
      after?_eq_some_iff.2 ⟨occurrence, rfl, rfl⟩
    rw [List.nil_append, past?_of_after? hafter]
    exact Option.some_ne_none rest
  | cons c before ih =>
    rw [List.cons_append, List.cons_append, past?]
    split
    · exact Option.some_ne_none _
    · exact ih

/-- What follows a text does not change where a marker first ends in it. -/
theorem past?_append_of_some {marker cs rest : List Char} (h : past? marker cs = some rest)
    (more : List Char) : past? marker (cs ++ more) = some (rest ++ more) := by
  induction cs with
  | nil =>
    obtain ⟨head, hcs, rfl⟩ := after?_eq_some_iff.1 h
    obtain ⟨rfl, rfl⟩ := List.append_eq_nil_iff.1 hcs.symm
    cases more <;> rfl
  | cons c cs ih =>
    obtain ⟨before, occurrence, hcs, hocc⟩ := eq_append_of_past? h
    have hlen : marker.length ≤ (c :: cs).length := by
      rw [hcs, ← hocc, length_lower, List.length_append, List.length_append]
      omega
    rw [past?] at h
    rw [List.cons_append, past?, ← List.cons_append, after?_append hlen]
    split at h
    · rename_i rest' hafter
      cases h
      rw [hafter, Option.map_some]
    · rename_i hafter
      rw [hafter, Option.map_none]
      exact ih h

/-- A marker that is found only when more has arrived ends in what has arrived. -/
theorem suffix_of_past?_append {marker xs ys rest : List Char} (hxs : past? marker xs = none)
    (h : past? marker (xs ++ ys) = some rest) : rest <:+ ys := by
  obtain ⟨before, occurrence, htext, rfl⟩ := eq_append_of_past? h
  rcases List.append_eq_append_iff.1 htext with ⟨ts, -, hys⟩ | ⟨ts, hxs', -⟩
  · exact ⟨ts, hys.symm⟩
  · rw [hxs'] at hxs
    exact absurd hxs (past?_ne_none before occurrence ts)

theorem suffix_of_past? {marker cs rest : List Char} (h : past? marker cs = some rest) :
    rest <:+ cs := by
  obtain ⟨before, occurrence, rfl, -⟩ := eq_append_of_past? h
  exact ⟨before ++ occurrence, rfl⟩

/-! ### Marks that are cut -/

/-- What has to be at hand as a whole to be told: the line end CR LF and the openings of blocks. -/
def marks : List (List Char) := ['\r', '\n'] :: Block.all.map Block.opening

theorem opening_mem_marks (b : Block) : b.opening ∈ marks := by
  cases b <;> decide

/-- A mark stands across the border of two texts. -/
def Severs (mark xs ys : List Char) : Prop :=
  ∃ start rest, mark = start ++ rest ∧ start ≠ [] ∧ rest ≠ [] ∧ start <:+ lower xs ∧
    rest <+: lower ys

theorem Severs.of_suffix {mark xs xs' ys : List Char} (h : Severs mark xs ys) (hxs : xs <:+ xs') :
    Severs mark xs' ys := by
  obtain ⟨start, rest, hmark, hstart, hrest, hsuffix, hprefix⟩ := h
  exact ⟨start, rest, hmark, hstart, hrest, hsuffix.trans (hxs.map Char.toLower), hprefix⟩

theorem not_severs_nil (mark ys : List Char) : ¬ Severs mark [] ys := by
  rintro ⟨start, rest, -, hstart, -, hsuffix, -⟩
  exact hstart (List.suffix_nil.1 hsuffix)

/-- A mark that is cut is in the text. -/
theorem Severs.infix {mark xs ys : List Char} (h : Severs mark xs ys) :
    mark <:+: lower (xs ++ ys) := by
  obtain ⟨begin, rest, rfl, -, -, ⟨before, hbefore⟩, ⟨after, hafter⟩⟩ := h
  refine ⟨before, after, ?_⟩
  rw [lower_append, ← hbefore, ← hafter]
  simp only [List.append_assoc]

/-- A marker that a text starts with only once more has arrived is cut. -/
theorem severs_of_after? {marker cs more rest : List Char} (hcs : cs ≠ [])
    (hnone : after? marker cs = none) (h : after? marker (cs ++ more) = some rest) :
    Severs marker cs more := by
  obtain ⟨head, htext, rfl⟩ := after?_eq_some_iff.1 h
  rcases List.append_eq_append_iff.1 htext with ⟨ts, hhead, hmore⟩ | ⟨ts, hcs', -⟩
  · subst hhead hmore
    refine ⟨lower cs, lower ts, lower_append cs ts, by simpa [lower] using hcs, ?_,
      List.suffix_rfl, ?_⟩
    · intro hts
      have hts : ts = [] := by simpa [lower] using hts
      rw [hts, List.append_nil] at hnone
      rw [after?_eq_some_iff.2 ⟨cs, (List.append_nil cs).symm, rfl⟩] at hnone
      cases hnone
    · rw [lower_append]
      exact List.prefix_append _ _
  · rw [hcs', after?_eq_some_iff.2 ⟨head, rfl, rfl⟩] at hnone
    cases hnone

/-! ### Blocks -/

namespace Block

/-- No text opens two blocks. -/
theorem eq_of_after? {b b' : Block} {cs rest rest' : List Char}
    (h : after? b.opening cs = some rest) (h' : after? b'.opening cs = some rest') : b = b' := by
  obtain ⟨head, rfl, hhead⟩ := after?_eq_some_iff.1 h
  obtain ⟨head', htext, hhead'⟩ := after?_eq_some_iff.1 h'
  -- the third characters of the openings differ already
  have hlow := congrArg (fun cs => (lower cs).take 3) htext
  simp only [lower_append, hhead, hhead'] at hlow
  cases b <;> cases b' <;> first | rfl | simp [opening] at hlow

theorem opened?_eq_some_iff {b : Block} {cs rest : List Char} :
    opened? cs = some (b, rest) ↔ after? b.opening cs = some rest := by
  constructor
  · intro h
    obtain ⟨b', -, hb⟩ := List.exists_of_findSome?_eq_some h
    obtain ⟨rest', hafter, hpair⟩ := Option.map_eq_some_iff.1 hb
    cases hpair
    exact hafter
  · intro h
    have hsome : (opened? cs).isSome := by
      rw [opened?, List.findSome?_isSome_iff]
      exact ⟨b, by cases b <;> decide, by simp [h]⟩
    obtain ⟨⟨b', rest'⟩, hopened⟩ := Option.isSome_iff_exists.1 hsome
    obtain ⟨b'', -, hb⟩ := List.exists_of_findSome?_eq_some hopened
    obtain ⟨rest'', hafter, hpair⟩ := Option.map_eq_some_iff.1 hb
    cases hpair
    cases eq_of_after? h hafter
    rw [h] at hafter
    cases hafter
    exact hopened

theorem opened?_append_of_some {b : Block} {cs rest : List Char} (h : opened? cs = some (b, rest))
    (more : List Char) : opened? (cs ++ more) = some (b, rest ++ more) :=
  opened?_eq_some_iff.2 (after?_append_of_some (opened?_eq_some_iff.1 h) more)

theorem opened?_append_of_none {cs more : List Char} (hcs : cs ≠ []) (h : opened? cs = none)
    (hmore : ∀ b : Block, ¬ Severs b.opening cs more) : opened? (cs ++ more) = none := by
  rw [Option.eq_none_iff_forall_ne_some]
  rintro ⟨b, rest⟩ hopened
  refine hmore b (severs_of_after? hcs ?_ (opened?_eq_some_iff.1 hopened))
  rw [Option.eq_none_iff_forall_ne_some]
  intro rest' hafter
  rw [opened?_eq_some_iff.2 hafter] at h
  cases h

end Block

/-! ### Heads -/

namespace Head

/-- The head with more text after it. -/
def extend (more : List Char) : Head → Head
  | block b rest => block b (rest ++ more)
  | tag rest => tag (rest ++ more)
  | ampersand rest => ampersand (rest ++ more)
  | blank c rest => blank c (rest ++ more)
  | char c rest => char c (rest ++ more)

/-- What a text starts with that does not start with the line end CR LF. -/
theorem of?_cons {c : Char} {cs : List Char} (h : c = '\r' → cs.head? ≠ some '\n') :
    of? (c :: cs) =
      if c = '<' then
        match Block.opened? (c :: cs) with
        | some (b, rest) => some (.block b rest)
        | none => some (.tag cs)
      else if c = '&' then some (.ampersand cs)
      else if isBodyBlank c then some (.blank c cs)
      else some (.char c cs) := by
  rw [of?.eq_def]
  split
  · rename_i heq
    cases heq
  · rename_i cs' heq
    cases heq
    exact absurd rfl (h rfl)
  · rename_i c' cs' hne heq
    cases heq
    rfl

/-- **The text at hand tells what a text starts with** when no mark is cut at its end. -/
theorem of?_append {cs more : List Char} {head : Head} (h : of? cs = some head)
    (hmore : ∀ mark ∈ marks, ¬ Severs mark cs more) :
    of? (cs ++ more) = some (head.extend more) := by
  have hblocks : ∀ b : Block, ¬ Severs b.opening cs more := fun b => hmore _ (opening_mem_marks b)
  cases cs with
  | nil => cases h
  | cons c cs =>
    by_cases hcrlf : c = '\r' ∧ cs.head? = some '\n'
    · obtain ⟨rfl, hhead⟩ := hcrlf
      obtain ⟨tail, rfl⟩ := List.head?_eq_some_iff.1 hhead
      cases h
      rfl
    · have hcs : c = '\r' → cs.head? ≠ some '\n' := fun hc hn => hcrlf ⟨hc, hn⟩
      have hboth : c = '\r' → (cs ++ more).head? ≠ some '\n' := by
        rintro rfl hn
        cases cs with
        | cons d cs => exact hcs rfl hn
        | nil =>
          obtain ⟨tail, rfl⟩ := List.head?_eq_some_iff.1 hn
          refine hmore ['\r', '\n'] List.mem_cons_self ⟨['\r'], ['\n'], rfl, nofun, nofun, ?_, ?_⟩
          · exact List.suffix_rfl
          · exact List.prefix_append ['\n'] (lower tail)
      rw [of?_cons hcs] at h
      rw [List.cons_append, of?_cons hboth]
      by_cases hlt : c = '<'
      · rw [if_pos hlt] at h ⊢
        rw [← List.cons_append]
        cases hopened : Block.opened? (c :: cs) with
        | none =>
          rw [hopened] at h
          cases h
          rw [Block.opened?_append_of_none (List.cons_ne_nil c cs) hopened hblocks]
          rfl
        | some found =>
          rw [hopened] at h
          cases h
          rw [Block.opened?_append_of_some hopened]
          rfl
      · rw [if_neg hlt] at h ⊢
        by_cases hamp : c = '&'
        · rw [if_pos hamp] at h ⊢
          cases h
          rfl
        · rw [if_neg hamp] at h ⊢
          split at h <;> cases h <;> simp_all [extend]

/-- What follows a head is the end of the text. -/
theorem suffix_rest {cs : List Char} {head : Head} (h : of? cs = some head) :
    head.rest <:+ cs := by
  cases cs with
  | nil => cases h
  | cons c cs =>
    by_cases hcrlf : c = '\r' ∧ cs.head? = some '\n'
    · obtain ⟨rfl, hhead⟩ := hcrlf
      obtain ⟨tail, rfl⟩ := List.head?_eq_some_iff.1 hhead
      cases h
      exact ⟨['\r', '\n'], rfl⟩
    · rw [of?_cons fun hc hn => hcrlf ⟨hc, hn⟩] at h
      split at h
      · split at h
        · rename_i b rest hopened
          cases h
          obtain ⟨head, hcs, -⟩ := after?_eq_some_iff.1 (Block.opened?_eq_some_iff.1 hopened)
          exact ⟨head, hcs.symm⟩
        · cases h
          exact ⟨[c], rfl⟩
      · split at h
        · cases h
          exact ⟨[c], rfl⟩
        · split at h
          · cases h
            exact ⟨[c], rfl⟩
          · cases h
            exact ⟨[c], rfl⟩

end Head

end BodyText
