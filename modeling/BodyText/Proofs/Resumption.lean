import BodyText.Proofs.Conversion
import BodyText.Proofs.Failures
import BodyText.Proofs.Termination

/-!
# Going on behind a failure

A converter may be asked again after a failure. The failed call then has lost the bytes that had
arrived of the line being read, those that were held back, and the text that it had written itself;
all else is kept (`Converter.text_of_resumed`). Where it had written none, was not in a tag or a
block, and nothing was held back, just the bytes of the line are lost: the calls for chunks before
and behind the failure return the text of the body without them. Where the failure comes behind a
whole line, that is the text of the whole body.
-/

namespace BodyText

namespace Converter

/-! ### Paths and deliveries -/

/-- A move with the finest delivery of its input. -/
def Move.trickle : Move → Move
  | onward p c => onward p c.trickle
  | answer result c => answer result c.trickle

theorem Move.Keeps.on_eq_trickle {move : Move} {r : Reader} (h : Keeps r move) :
    move.on r.stream.trickle = move.trickle := by
  cases h with
  | onward hreader =>
    subst hreader
    rfl
  | chunk hreader =>
    subst hreader
    rfl

theorem Move.Keeps.reader_eq {move : Move} {r : Reader} (h : Keeps r move) :
    move.converter.reader = r := by
  cases h with
  | onward hreader => exact hreader
  | chunk hreader => exact hreader

/-- A turn does not tell how the input is delivered. -/
theorem turn_trickle {c : Converter} (h : c.reader.Roomy) (p : Phase) :
    c.trickle.turn p = (c.turn p).trickle ∧ (c.turn p).converter.reader.Roomy := by
  have close_trickle {d : Converter} (hd : d.reader.Roomy) (q : Quest) :
      d.trickle.close q = (d.close q).trickle ∧ (d.close q).converter.reader.Roomy := by
    have hkeeps := keeps_put d (q.item d.unread).2 (q.item d.unread).1
    exact ⟨(put_on d _ _ _).trans hkeeps.on_eq_trickle, hkeeps.reader_eq ▸ hd⟩
  have hwants : c.trickle.wants p = c.wants p := by cases p <;> rfl
  obtain ⟨heq, hroomy⟩ := blind_refill c h
  generalize hmove : c.turn p = move
  cases turn_eq_iff.1 hmove with
  | act henough =>
    have hturn := turn_eq_iff.2 (.act (hwants.trans henough))
    have hkeeps := keeps_act c p
    exact ⟨hturn.trans ((act_on c p _).trans hkeeps.on_eq_trickle), hkeeps.reader_eq ▸ h⟩
  | failed hneeds hrefill =>
    rw [hrefill] at heq hroomy
    exact ⟨turn_eq_iff.2 (.failed (hwants.trans hneeds) heq), hroomy⟩
  | line hneeds hrefill =>
    rw [hrefill] at heq hroomy
    exact ⟨turn_eq_iff.2 (.line (hwants.trans hneeds) heq), hroomy⟩
  | atEnd hneeds hrefill =>
    rw [hrefill] at heq hroomy
    have hturn := turn_eq_iff.2 (.atEnd (hwants.trans hneeds) heq)
    cases p with
    | between => exact ⟨hturn, hroomy⟩
    | seeking q =>
      obtain ⟨hclose, hroomy'⟩ := close_trickle hroomy q
      exact ⟨hturn.trans hclose, hroomy'⟩

/-- A path does not tell how the input is delivered. -/
theorem Path.trickle {p p' : Phase} {c c' : Converter} {ks : List Chunk} (h : Path p c ks p' c')
    (hroomy : c.reader.Roomy) : Path p c.trickle ks p' c'.trickle ∧ c'.reader.Roomy := by
  induction h with
  | refl => exact ⟨.refl, hroomy⟩
  | @onward p p' p'' c c' c'' ks hturn _ ih =>
    obtain ⟨heq, hroomy'⟩ := turn_trickle hroomy p
    rw [hturn] at heq hroomy'
    obtain ⟨hpath, hroomy''⟩ := ih hroomy'
    exact ⟨.onward heq hpath, hroomy''⟩
  | @chunk p p'' c c' c'' k ks hturn _ ih =>
    obtain ⟨heq, hroomy'⟩ := turn_trickle hroomy p
    rw [hturn] at heq hroomy'
    obtain ⟨hpath, hroomy''⟩ := ih hroomy'
    exact ⟨.chunk heq hpath, hroomy''⟩

/-- There is one way to a failure only. -/
theorem Path.unique_of_failed {p p₁ p₂ : Phase} {c m₁ m₂ d₁ d₂ : Converter} {ks₁ ks₂ : List Chunk}
    {e₁ e₂ : ReadError} (h₁ : Path p c ks₁ p₁ m₁) (hfails₁ : m₁.turn p₁ = .answer (.error e₁) d₁)
    (h₂ : Path p c ks₂ p₂ m₂) (hfails₂ : m₂.turn p₂ = .answer (.error e₂) d₂) :
    ks₁ = ks₂ ∧ p₁ = p₂ ∧ m₁ = m₂ := by
  induction h₁ generalizing ks₂ with
  | refl =>
    cases h₂ with
    | refl => exact ⟨rfl, rfl, rfl⟩
    | onward hturn _ =>
      rw [hfails₁] at hturn
      cases hturn
    | chunk hturn _ =>
      rw [hfails₁] at hturn
      cases hturn
  | onward hturn₁ _ ih =>
    cases h₂ with
    | refl =>
      rw [hfails₂] at hturn₁
      cases hturn₁
    | onward hturn hmore =>
      rw [hturn₁] at hturn
      cases hturn
      exact ih hfails₁ hmore
    | chunk hturn _ =>
      rw [hturn₁] at hturn
      cases hturn
  | chunk hturn₁ _ ih =>
    cases h₂ with
    | refl =>
      rw [hfails₂] at hturn₁
      cases hturn₁
    | onward hturn _ =>
      rw [hturn₁] at hturn
      cases hturn
    | chunk hturn hmore =>
      rw [hturn₁] at hturn
      cases hturn
      obtain ⟨rfl, hrest⟩ := ih hfails₁ hmore
      exact ⟨rfl, hrest⟩

/-! ### What is written from between two items on -/

theorem Run.toList_text (r : Run) :
    r.text.toList = ((r.chunks.map Prod.fst).flatMap Chunk.characters).map Prod.fst := by
  have toList_characters (k : Chunk) : k.characters.map Prod.fst = k.text.toList := by
    simp [Chunk.characters, withLink, Function.comp_def]
  unfold Run.text
  induction r.chunks with
  | nil => rfl
  | cons k ks ih =>
    rw [List.map_cons, String.join_cons, String.toList_append, ih, List.map_cons,
      List.flatMap_cons, List.map_append, toList_characters]

/-- What a conversion delivers that stands between two items. -/
theorem delivers_ofAnswer {p : Prop} {c : Converter} (h : c.Steady p) :
    (Run.ofAnswer c.advance).failure = none ∧
      Writer.Delivers p c.writer c.supply.items ((Run.ofAnswer c.advance).chunks.map Prod.fst)
        (Run.ofAnswer c.advance).final.writer := by
  have hadvances := advances h
  generalize c.advance = result at hadvances
  cases hadvances with
  | ended hdelivers => exact ⟨rfl, hdelivers⟩
  | chunk hsteady hhands =>
    obtain ⟨hfailure, hdelivers⟩ := delivers_run hsteady
    exact ⟨hfailure, hhands _ _ hdelivers⟩

/-- A new call writes the same text, where nothing was written before. -/
theorem text_ofAnswer {p : Prop} {c : Converter} (h : c.Steady p)
    (htext : c.writer.layout.text = "") : (Run.ofAnswer c.advance).text = c.run.text := by
  obtain ⟨-, hdelivers⟩ := delivers_ofAnswer h
  obtain ⟨-, hdelivers'⟩ := delivers_run h
  apply String.toList_injective
  rw [Run.toList_text, Run.toList_text, hdelivers.characters_eq, hdelivers'.characters_eq,
    Writer.compose_renew htext]

/-- What may be a reference is at hand wherever a path leads. -/
theorem Path.fits {p p' : Phase} {c c' : Converter} {ks : List Chunk} (h : Path p c ks p' c')
    (hfits : c.Fits p) : c'.Fits p' := by
  induction h with
  | refl => exact hfits
  | @onward p p' p'' c c' c'' ks hturn _ ih =>
    obtain ⟨reads, lines, used, hspends⟩ := exists_spends_turn hfits
    rw [hturn] at hspends
    exact ih hspends.fits
  | chunk _ _ ih => exact ih Phase.noConfusion

/-- Where nothing of the next chunk was used up, the turns that follow are those of a call that
begins there: it comes upon the same reference. -/
theorem Unspent.exists_answers {c : Converter} {p : Phase} (h : c.Unspent p) (hfits : c.Fits p) :
    ∃ n, Answers n p c c.advance := by
  obtain ⟨n, hanswers⟩ := answers_advance c
  obtain ⟨-, rfl | rfl⟩ := h
  · exact ⟨n, hanswers⟩
  · obtain ⟨cs, hunread⟩ := hfits rfl
    have hhead : Head.of? c.unread = some (.ampersand cs) := by rw [hunread]; rfl
    have hturn : c.turn .between = .onward (.seeking .reference) c := by
      refine (turn_eq_iff.2 (.act (by rw [wants, hunread]; rfl))).trans ?_
      rw [act, hhead]
    generalize c.advance = answer at hanswers ⊢
    cases hanswers with
    | last hlast =>
      rw [hturn] at hlast
      cases hlast
    | onward hfirst hmore =>
      rw [hturn] at hfirst
      cases hfirst
      exact ⟨_, hmore⟩

/-- The text of a conversion whose path comes to where nothing of the next chunk is used up yet. -/
theorem Path.toList_text {P : Prop} {p : Phase} {c m : Converter} {ks : List Chunk}
    (h : Path .between c.fresh ks p m) (hm : m.Steady P) (hunspent : m.Unspent p) :
    c.run.failure = none ∧
      c.run.text.toList = (ks.flatMap Chunk.characters).map Prod.fst ++ m.run.text.toList := by
  obtain ⟨n, hanswers⟩ := hunspent.exists_answers (h.fits Phase.noConfusion)
  obtain ⟨hchunks, hfailure, -⟩ := h.run_eq hanswers
  refine ⟨hfailure.trans (delivers_ofAnswer hm).1, ?_⟩
  rw [Run.toList_text, hchunks, List.flatMap_append, List.map_append, ← Run.toList_text,
    text_ofAnswer hm hunspent.1]

/-! ### The text behind a failure -/

/-- The text that is returned when calls for chunks go on behind a failure. -/
def resumedText (c : Converter) : String := c.run.text ++ c.run.final.run.text

/-- The way to the failure in a body, with what is known of its stream put bytewise. -/
theorem exists_path_of_failed {s₁ s₂ : Stream} (h : s₁.Steady) {cause : String} {charset : Charset}
    {config : Config} {c m m' : Converter} {p : Phase} {ks : List Chunk} {e : ReadError}
    (hc : c = start (s₁ ++ .failure cause :: s₂) charset config)
    (hpath : Path .between c.fresh ks p m) (hfails : m.turn p = .answer (.error e) m') :
    ∃ whole lost d, s₁.bytes = whole ++ lost ∧ Stuck p d lost ∧ d.reader.Roomy ∧
      m.trickle = d.on (Stream.bytewise lost ++ .failure cause :: s₂.trickle) ∧
      m'.trickle = d.cutOff s₂.trickle ∧
      ∀ s, Path .between ((start [] charset config).fresh.on (Stream.bytewise whole ++ s)) ks p
        (d.on s) := by
  have hroomy (s : Stream) : (start s charset config).reader.Roomy := Reader.roomy_start ..
  obtain ⟨ks₀, whole, lost, p₀, d, hbytes, hstuck, hknown⟩ := exists_path (hroomy []) s₁.bytes
  obtain ⟨htrickle, hroomy_m⟩ := hpath.trickle (hc ▸ hroomy _)
  obtain ⟨hfails', -⟩ := turn_trickle hroomy_m p
  rw [hfails] at hfails'
  have hstart : c.fresh.trickle = (start [] charset config).fresh.on
      (Stream.bytewise whole ++ (Stream.bytewise lost ++ .failure cause :: s₂.trickle)) := by
    rw [← Stream.bytewise_append, ← hbytes]
    exact congrArg fresh (hc ▸ trickle_start h (.failure cause :: s₂) charset config)
  rw [hstart] at htrickle
  obtain ⟨rfl, rfl, hm⟩ := htrickle.unique_of_failed hfails' (hknown _)
    (hstuck.fails cause s₂.trickle)
  rw [hm, hstuck.fails] at hfails'
  have hroomy_d : d.reader.Roomy := by
    change (d.on (Stream.bytewise lost ++ .failure cause :: s₂.trickle)).reader.Roomy
    rw [← hm]
    exact hroomy_m
  exact ⟨whole, lost, d, hbytes, hstuck, hroomy_d, hm, (Move.answer.inj hfails').2.symm, hknown⟩

/-- The text behind a failure by which just the bytes of a line are lost. -/
theorem text_of_cutOff {s₂ : Stream} (h₂ : s₂.Steady) {charset : Charset} {config : Config}
    {p : Phase} {c d : Converter} {whole : List UInt8} {ks : List Chunk} (hunspent : d.Unspent p)
    (hroomy : d.reader.Roomy) (hcarry : d.reader.carry = [])
    (hknown : ∀ s, Path .between
      ((start [] charset config).fresh.on (Stream.bytewise whole ++ s)) ks p (d.on s))
    (hchunks : c.run.chunks.map Prod.fst = ks)
    (hfinal : c.run.final.trickle = d.cutOff s₂.trickle) (hroomy_final : c.run.final.reader.Roomy) :
    c.run.final.run.failure = none ∧ ∀ s : Stream, s.Steady → s.bytes = whole ++ s₂.bytes →
      plainText s charset config = .ok c.resumedText := by
  -- behind the failure, the conversion goes on as without one
  have hgoes : c.run.final.trickle = d.on (Stream.bytewise s₂.bytes) := by
    rw [hfinal, cutOff, Reader.cutOff, ← hcarry, h₂.trickle_eq]
    rfl
  have hsteady : (d.on (Stream.bytewise s₂.bytes)).Steady True := by
    refine ⟨⟨(Stream.steady_bytewise _).unbroken, hroomy, ?_⟩, fun _ _ _ => trivial⟩
    rw [show (d.on (Stream.bytewise s₂.bytes)).reader.carry = d.reader.carry from rfl, hcarry]
    exact List.not_mem_nil
  obtain ⟨hrest, hfailure, -⟩ := run_trickle hroomy_final
  rw [hgoes] at hrest hfailure
  refine ⟨hfailure.symm.trans (delivers_run hsteady).1, ?_⟩
  intro s hs hbytes
  have hroomy_s : (start s charset config).reader.Roomy := Reader.roomy_start ..
  have hpath : Path .between (start s charset config).trickle.fresh ks p
      (d.on (Stream.bytewise s₂.bytes)) := by
    have hs_trickle : s.trickle = Stream.bytewise whole ++ Stream.bytewise s₂.bytes := by
      rw [hs.trickle_eq, hbytes, Stream.bytewise, List.map_append]
      rfl
    have hpath := hknown (Stream.bytewise s₂.bytes)
    rw [← hs_trickle] at hpath
    exact hpath
  obtain ⟨hfailure_s, htext_s⟩ := hpath.toList_text hsteady hunspent
  obtain ⟨hsame, hsame', -⟩ := run_trickle hroomy_s
  have htext_c : (start s charset config).run.text = c.resumedText := by
    apply String.toList_injective
    rw [Run.toList_text, ← hsame, ← Run.toList_text, htext_s, resumedText, String.toList_append,
      Run.toList_text c.run, hchunks, Run.toList_text c.run.final.run, ← hrest, ← Run.toList_text]
  rw [plainText, ← htext_c]
  simp only [← hsame', hfailure_s]

/-- **What a failed call loses.** There is a turn that fails. By it, the bytes of the line being
read are lost, and those held back; the text at hand and the writer are left as they were. Where
nothing of the next chunk was used up then and nothing held back, the chunks before and behind the
failure have the text of the body without the bytes of that line, however it is delivered. -/
theorem text_of_resumed {s₁ s₂ : Stream} (h₁ : s₁.Steady) (h₂ : s₂.Steady) {cause : String}
    {charset : Charset} {config : Config} {c : Converter}
    (hc : c = start (s₁ ++ .failure cause :: s₂) charset config) :
    (∃ ks p m m', Path .between c.fresh ks p m ∧ m.turn p = .answer (.error ⟨cause⟩) m') ∧
      ∀ ks p m m' e, Path .between c.fresh ks p m → m.turn p = .answer (.error e) m' →
        ∃ whole lost, s₁.bytes = whole ++ lost ∧ lineEnd ∉ lost ∧
          m.reader.stream.bytes = lost ++ s₂.bytes ∧
          (c.run.final = m' ∧ m'.unread = m.unread ∧ m'.writer = m.writer ∧
            m'.reader.carry = [] ∧ m'.reader.stream.bytes = s₂.bytes) ∧
          (m.Unspent p → m.reader.carry = [] →
            c.run.final.run.failure = none ∧
              ∀ s : Stream, s.Steady → s.bytes = whole ++ s₂.bytes →
                plainText s charset config = .ok c.resumedText) := by
  have hroomy_c : c.reader.Roomy := hc ▸ Reader.roomy_start ..
  constructor
  · obtain ⟨ks, p, m, later, hstuck, hpath⟩ := exists_path_start h₁ charset config
    have hpath_c := hpath (.failure cause :: s₂)
    rw [← hc] at hpath_c
    exact exists_path_of_run (hstuck.run_eq hroomy_c hpath_c).2.1
  · intro ks p m m' e hpath hfails
    obtain ⟨whole, lost, d, hbytes, hstuck, hroomy, hm, hm', hknown⟩ :=
      exists_path_of_failed h₁ hc hpath hfails
    obtain ⟨hchunks, -, hfinal⟩ := hpath.run_eq (.last hfails)
    have hstream : m.reader.stream.trickle =
        Stream.bytewise lost ++ .failure cause :: s₂.trickle :=
      congrArg (·.reader.stream) hm
    have hstream' : m'.reader.stream.trickle = s₂.trickle := congrArg (·.reader.stream) hm'
    refine ⟨whole, lost, hbytes, hstuck.unfinished, ?_, ⟨hfinal, ?_, ?_, ?_, ?_⟩, ?_⟩
    · rw [← Stream.bytes_trickle, hstream, Stream.bytes_bytewise_append, Stream.bytes,
        Stream.bytes_trickle]
    · exact (congrArg Converter.unread hm').trans (congrArg Converter.unread hm).symm
    · exact (congrArg Converter.writer hm').trans (congrArg Converter.writer hm).symm
    · exact congrArg (·.reader.carry) hm'
    · rw [← Stream.bytes_trickle, hstream', Stream.bytes_trickle]
    · intro hunspent hcarry
      have hunspent_d : d.Unspent p :=
        ⟨(congrArg (·.writer.layout.text) hm).symm.trans hunspent.1, hunspent.2⟩
      have hcarry_d : d.reader.carry = [] := (congrArg (·.reader.carry) hm).symm.trans hcarry
      obtain ⟨-, -, -, hroomy_final⟩ := run_trickle hroomy_c
      have hks : c.run.chunks.map Prod.fst = ks := hchunks.trans (List.append_nil ks)
      exact text_of_cutOff h₂ hunspent_d hroomy hcarry_d hknown hks (hfinal.symm ▸ hm') hroomy_final

/-- Just the letter of the second line is lost. -/
theorem text_of_resumed_in_line :
    ∃ m m', Path .between failedInLine.fresh [⟨"a", none, .normal⟩] .between m ∧
      m.turn .between = .answer (.error ⟨"lost"⟩) m' ∧ m.Unspent .between ∧
      m.reader.carry = [] ∧
      plainText [.segment [0x61, 0x0A, 0x63]] .utf8 {} = .ok failedInLine.resumedText := by
  have hfirst : failedInLine.next.1 = .ok (some ⟨"a", none, .normal⟩) := by cbv
  have hpath := path_of_next (Prod.ext hfirst rfl)
  -- the second call fails in its first turn
  have hwants : failedInLine.next.2.fresh.wants .between = true := by cbv
  have hrefill : failedInLine.next.2.fresh.refill.1 = .error ⟨"lost"⟩ := by cbv
  have hfails := turn_eq_iff.2 (.failed hwants (Prod.ext hrefill rfl))
  have hunspent : failedInLine.next.2.fresh.Unspent .between := ⟨rfl, .inl rfl⟩
  have hcarry : failedInLine.next.2.fresh.reader.carry = [] := by cbv
  have hstream : failedInLine.next.2.fresh.reader.stream.bytes = [0x62] ++ [0x63] := by cbv
  obtain ⟨-, hloses⟩ := text_of_resumed (Stream.steady_segment _)
    (Stream.steady_segment [0x63]) (rfl : failedInLine = _)
  obtain ⟨whole, lost, hbytes, -, hlost, -, htext⟩ := hloses _ _ _ _ _ hpath hfails
  -- what is left to read tells which bytes are lost
  have hlost : [0x62] = lost := List.append_cancel_right (hstream.symm.trans hlost)
  subst hlost
  have hwhole : [0x61, 0x0A] = whole := List.append_cancel_right hbytes
  subst hwhole
  obtain ⟨-, htext⟩ := htext hunspent hcarry
  exact ⟨_, _, hpath, hfails, hunspent, hcarry, htext _ (Stream.steady_segment _) rfl⟩

/-- Inside a line, its bytes are lost; inside a tag, also the text before it that was written by the
failed call, and the `<`. -/
theorem resumedText_of_two_failures :
    (plainText ([.segment [0x61, 0x62]] ++ [.segment [0x63, 0x64]]) .utf8 {} = .ok "abcd" ∧
        (start ([.segment [0x61, 0x62]] ++ .failure "lost" :: [.segment [0x63, 0x64]])
          .utf8 {}).resumedText = "cd") ∧
      plainText ([.segment [0x61, 0x62, 0x3C, 0x69, 0x0A]] ++ [.segment [0x3E, 0x63, 0x64]])
          .utf8 {} = .ok "abcd" ∧
        (start ([.segment [0x61, 0x62, 0x3C, 0x69, 0x0A]] ++ .failure "lost" ::
          [.segment [0x3E, 0x63, 0x64]]) .utf8 {}).resumedText = "i >cd" := by
  refine ⟨⟨?_, ?_⟩, ?_, ?_⟩ <;> cbv

end Converter

end BodyText
