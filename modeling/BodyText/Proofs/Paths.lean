import BodyText.Proofs.Delivery
import BodyText.Proofs.Turns

/-!
# Paths to a failure

A converter that knows only the next bytes of its stream takes the same turns whatever comes behind
them, until it needs a line that they do not end (`Converter.exists_path`). There it is stuck
(`Converter.Stuck`): if a failure comes next, the call fails with it. So what a conversion does
before a failure, it also does in any other continuation of the stream.

Bytes that are known come one by one here (`Stream.bytewise`), so that those that a turn uses can be
told from those that it leaves.
-/

namespace BodyText

/-! ### Known bytes -/

theorem lineHead_lineHead (room : Nat) (bytes : List UInt8) :
    lineHead room (lineHead room bytes) = lineHead room bytes := by
  fun_induction lineHead room bytes <;> simp_all [lineHead]

namespace Stream

/-- Some bytes, each in a segment of its own. -/
def bytewise (bs : List UInt8) : Stream := bs.map fun b => .segment [b]

theorem bytewise_append (bs more : List UInt8) (s : Stream) :
    bytewise (bs ++ more) ++ s = bytewise bs ++ (bytewise more ++ s) := by
  rw [bytewise, List.map_append, List.append_assoc]
  rfl

@[simp] theorem bytes_bytewise_append (bs : List UInt8) (s : Stream) :
    (bytewise bs ++ s).bytes = bs ++ s.bytes := by
  induction bs with
  | nil => rfl
  | cons b bs ih => exact congrArg (b :: ·) ih

theorem steady_bytewise (bs : List UInt8) : (bytewise bs).Steady := by
  intro f hf
  obtain ⟨b, -, rfl⟩ := List.mem_map.1 hf
  rfl

/-- Bytes that hold a line give just that line, and none of what comes behind it is used. -/
theorem takeLine_bytewise {room : Nat} (hroom : 0 < room) {bs : List UInt8}
    (h : (lineHead room bs).length = room ∨ (lineHead room bs).getLast? = some lineEnd)
    (s : Stream) :
    takeLine room (bytewise (lineHead room bs) ++ s) = (.ok (lineHead room bs), s) := by
  rw [bytewise, takeLine_singles hroom]
  simp only [lineHead_lineHead, if_pos h, List.drop_length, List.map_nil, List.nil_append]

/-- Bytes that do not hold a line are lost in a failure behind them. -/
theorem takeLine_bytewise_failure {room : Nat} (hroom : 0 < room) {bs : List UInt8}
    (h : ¬((lineHead room bs).length = room ∨ (lineHead room bs).getLast? = some lineEnd))
    (cause : String) (s : Stream) :
    takeLine room (bytewise bs ++ .failure cause :: s) = (.error ⟨cause⟩, s) := by
  rw [bytewise, takeLine_singles hroom]
  simp only [if_neg h]
  rfl

end Stream

namespace Reader

/-- The reader with another stream to read. -/
def on (r : Reader) (s : Stream) : Reader := { r with stream := s }

/-- The reader after a failure, behind which the stream goes on. -/
def cutOff (r : Reader) (s : Stream) : Reader := { r with stream := s, carry := [] }

/-- What a read comes to when just some bytes are known to come next. -/
inductive Begins (r : Reader) (bs : List UInt8) : Prop
  /-- They hold a line, whatever comes behind it. -/
  | line {used later : List UInt8} {line : Line} {r' : Reader} : bs = used ++ later → r'.Roomy →
      (∀ s, (r.on (Stream.bytewise used ++ s)).pull = (.ok (some line), r'.on s)) → Begins r bs
  /-- They end within a line, and a failure behind them fails. -/
  | within : lineEnd ∉ bs →
      (∀ cause s, (r.on (Stream.bytewise bs ++ .failure cause :: s)).pull =
        (.error ⟨cause⟩, r.cutOff s)) → Begins r bs

theorem begins {r : Reader} (h : r.Roomy) (bs : List UInt8) : r.Begins bs := by
  have hroom : 0 < r.limit - r.carry.length := Nat.sub_pos_of_lt h
  by_cases hstop : (lineHead (r.limit - r.carry.length) bs).length = r.limit - r.carry.length ∨
      (lineHead (r.limit - r.carry.length) bs).getLast? = some lineEnd
  · generalize hused : lineHead (r.limit - r.carry.length) bs = used at hstop
    have hne : used ≠ [] := by
      rintro rfl
      rcases hstop with hlen | hlast
      · rw [List.length_nil] at hlen
        omega
      · cases hlast
    have hraw : r.carry ++ used ≠ [] := fun hnil => hne (List.append_eq_nil_iff.1 hnil).2
    have htake := Stream.takeLine_bytewise hroom (hused.symm ▸ hstop)
    rw [hused] at htake
    have hbs : bs = used ++ bs.drop used.length := by rw [← hused, lineHead_append_drop]
    have hpull (s : Stream) : (r.on (Stream.bytewise used ++ s)).pull =
        (.ok (some (r.charset.lineOf r.limit (r.carry ++ used))),
          on { r with
            carry := (r.carry ++ used).drop
              (r.charset.lineOf r.limit (r.carry ++ used)).bytes.length
            lineNumber := r.lineNumber + 1 } s) := by
      rw [pull, on, htake]
      simp only [settle_of_ne_nil _ hraw]
      rfl
    have hroomy := roomy_of_pull (r := r.on (Stream.bytewise used ++ [])) h
    rw [hpull] at hroomy
    exact .line hbs hroomy hpull
  · have hall : lineHead (r.limit - r.carry.length) bs = bs := lineHead_eq_self hstop
    refine .within ?_ ?_
    · rw [← hall]
      exact not_mem_lineHead fun hlast => hstop (.inr hlast)
    · intro cause s
      rw [pull, on, Stream.takeLine_bytewise_failure hroom hstop]
      rfl

end Reader

/-! ### One turn -/

namespace Converter

/-- The converter with another stream to read. -/
def on (c : Converter) (s : Stream) : Converter := { c with reader := c.reader.on s }

/-- The converter after a failed read, behind which the stream goes on. -/
def cutOff (c : Converter) (s : Stream) : Converter := { c with reader := c.reader.cutOff s }

/-- A move with another stream to read. -/
def Move.on (s : Stream) : Move → Move
  | onward p c => onward p (c.on s)
  | answer result c => answer result (c.on s)

theorem put_on (c : Converter) (rest : List Char) (item : Item) (s : Stream) :
    ((c.on s).withUnread rest).put item = ((c.withUnread rest).put item).on s := by
  rw [put, put, show ((c.on s).withUnread rest).writer = (c.withUnread rest).writer from rfl]
  split <;> rfl

/-- What is done with the text at hand has nothing to do with the stream. -/
theorem act_on (c : Converter) (p : Phase) (s : Stream) : (c.on s).act p = (c.act p).on s := by
  cases p with
  | seeking q => exact put_on c _ _ s
  | between =>
    rw [act, act, show (c.on s).unread = c.unread from rfl]
    split
    · rfl
    · rfl
    · rfl
    · rfl
    · exact put_on c _ _ s
    · exact put_on c _ _ s

/-- A move that goes on or hands a chunk out, and keeps the reader as it is. -/
inductive Move.Keeps (r : Reader) : Move → Prop
  /-- There are more turns. -/
  | onward {p : Phase} {c : Converter} : c.reader = r → Keeps r (.onward p c)
  /-- A chunk is there. -/
  | chunk {k : Chunk} {c : Converter} : c.reader = r → Keeps r (.answer (.ok (some k)) c)

theorem keeps_put (c : Converter) (rest : List Char) (item : Item) :
    ((c.withUnread rest).put item).Keeps c.reader := by
  rw [put]
  split
  · exact .chunk rfl
  · exact .onward rfl

theorem keeps_act (c : Converter) (p : Phase) : (c.act p).Keeps c.reader := by
  cases p with
  | seeking q => exact keeps_put c _ _
  | between =>
    rw [act]
    split
    · exact .chunk rfl
    · exact .onward rfl
    · exact .onward rfl
    · exact .onward rfl
    · exact keeps_put c _ _
    · exact keeps_put c _ _

/-- A converter that needs a line of which just some bytes are known. If a failure comes behind
them, the call fails: the bytes are lost, and those held back. -/
structure Stuck (p : Phase) (c : Converter) (bs : List UInt8) : Prop where
  /-- Nothing can be done with the text at hand. -/
  wants : c.wants p = true
  /-- The bytes do not end the line. -/
  unfinished : lineEnd ∉ bs
  /-- A failure behind them is the answer. -/
  fails : ∀ cause s, (c.on (Stream.bytewise bs ++ .failure cause :: s)).turn p =
    .answer (.error ⟨cause⟩) (c.cutOff s)

/-- What a turn comes to when just some bytes are known to come next. -/
inductive Goes (p : Phase) (c : Converter) (bs : List UInt8) : Prop
  /-- There are more turns, whatever comes behind the bytes that are used. -/
  | onward {used later : List UInt8} {p' : Phase} {c' : Converter} : bs = used ++ later →
      c'.reader.Roomy →
      (∀ s, (c.on (Stream.bytewise used ++ s)).turn p = .onward p' (c'.on s)) → Goes p c bs
  /-- A chunk is there, whatever comes next. -/
  | chunk {k : Chunk} {c' : Converter} : c'.reader.Roomy →
      (∀ s, (c.on s).turn p = .answer (.ok (some k)) (c'.on s)) → Goes p c bs
  /-- The bytes are not enough. -/
  | stuck : Stuck p c bs → Goes p c bs

theorem goes {c : Converter} (h : c.reader.Roomy) (p : Phase) (bs : List UInt8) :
    Goes p c bs := by
  have hwants_on (s : Stream) : (c.on s).wants p = c.wants p := by cases p <;> rfl
  cases hwants : c.wants p with
  | true =>
    cases Reader.begins h bs with
    | @line used later line r' hbs hroomy hpull =>
      have hmore (s : Stream) : (c.on (Stream.bytewise used ++ s)).turn p =
          .onward p (on {
            reader := r'
            unread := c.unread ++ line.text
            writer := if line.degraded then c.writer.noteDegraded r'.lineNumber else c.writer }
            s) := by
        refine turn_eq_iff.2 (.line ((hwants_on _).trans hwants) ?_)
        rw [refill, show (c.on (Stream.bytewise used ++ s)).reader =
          c.reader.on (Stream.bytewise used ++ s) from rfl, hpull]
        rfl
      exact .onward hbs hroomy hmore
    | within hbs hpull =>
      refine .stuck ⟨hwants, hbs, fun cause s => ?_⟩
      refine turn_eq_iff.2 (.failed ((hwants_on _).trans hwants) ?_)
      rw [refill, show (c.on (Stream.bytewise bs ++ .failure cause :: s)).reader =
        c.reader.on (Stream.bytewise bs ++ .failure cause :: s) from rfl, hpull]
      rfl
  | false =>
    have hturn (s : Stream) : (c.on s).turn p = (c.act p).on s :=
      (turn_eq_iff.2 (.act ((hwants_on s).trans hwants))).trans (act_on c p s)
    have hkeeps := keeps_act c p
    generalize c.act p = move at hturn hkeeps
    cases hkeeps with
    | onward hreader =>
      have hbs : bs = [] ++ bs := rfl
      exact .onward hbs (hreader ▸ h) hturn
    | chunk hreader => exact .chunk (hreader ▸ h) hturn

/-! ### Many turns -/

/-- From one phase to another, turns of one call and of those after it hand chunks out. A call
begins between two items. -/
inductive Path : Phase → Converter → List Chunk → Phase → Converter → Prop
  /-- No turns. -/
  | refl {p : Phase} {c : Converter} : Path p c [] p c
  /-- A turn with others after it. -/
  | onward {p p' p'' : Phase} {c c' c'' : Converter} {ks : List Chunk} :
      c.turn p = .onward p' c' → Path p' c' ks p'' c'' → Path p c ks p'' c''
  /-- A turn that hands a chunk out, with the next call after it. -/
  | chunk {p p'' : Phase} {c c' c'' : Converter} {k : Chunk} {ks : List Chunk} :
      c.turn p = .answer (.ok (some k)) c' → Path .between c'.fresh ks p'' c'' →
      Path p c (k :: ks) p'' c''

theorem Path.trans {p p' p'' : Phase} {c c' c'' : Converter} {ks more : List Chunk}
    (h : Path p c ks p' c') (h' : Path p' c' more p'' c'') : Path p c (ks ++ more) p'' c'' := by
  induction h with
  | refl => exact h'
  | onward hturn _ ih => exact .onward hturn (ih h')
  | chunk hturn _ ih => exact .chunk hturn (ih h')

/-- The turns of one call on known bytes, with a failure behind them: they come to a chunk, or get
stuck, and do so whatever comes behind the bytes that are used. -/
theorem Answers.exists_path {n : Nat} {p : Phase} {c c₀ : Converter} {bs : List UInt8}
    {cause : String} {s : Stream} {answer : Except ReadError (Option Chunk) × Converter}
    (h : Answers n p c₀ answer) (hc₀ : c₀ = c.on (Stream.bytewise bs ++ .failure cause :: s))
    (hroomy : c.reader.Roomy) :
    ∃ used later, bs = used ++ later ∧
      ((∃ (k : Chunk) (c' : Converter), c'.reader.Roomy ∧
          answer = (.ok (some k), c'.on (Stream.bytewise later ++ .failure cause :: s)) ∧
          ∀ s', Path p (c.on (Stream.bytewise used ++ s')) [k] .between (c'.fresh.on s')) ∨
        ∃ p' m, Stuck p' m later ∧
          ∀ s', Path p (c.on (Stream.bytewise used ++ s')) [] p' (m.on s')) := by
  induction h generalizing c bs with
  | @last p c₀ c₁ result hturn =>
    subst hc₀
    cases goes hroomy p bs with
    | onward hbs _ hon =>
      rw [hbs, Stream.bytewise_append, hon] at hturn
      cases hturn
    | @chunk k c' hroomy' hon =>
      rw [hon] at hturn
      cases hturn
      exact ⟨[], bs, rfl, .inl ⟨k, c', hroomy', rfl, fun s' => .chunk (hon s') .refl⟩⟩
    | stuck hstuck => exact ⟨[], bs, rfl, .inr ⟨p, c, hstuck, fun s' => .refl⟩⟩
  | @onward n p p' c₀ c₁ answer hturn _ ih =>
    subst hc₀
    cases goes hroomy p bs with
    | @onward used later _ c' hbs hroomy' hon =>
      rw [hbs, Stream.bytewise_append, hon] at hturn
      cases hturn
      obtain ⟨used', later', hlater, hend⟩ := ih rfl hroomy'
      refine ⟨used ++ used', later', by rw [hbs, hlater, List.append_assoc], ?_⟩
      have hfirst (s' : Stream) : (c.on (Stream.bytewise (used ++ used') ++ s')).turn p =
          .onward p' (c'.on (Stream.bytewise used' ++ s')) := by
        rw [Stream.bytewise_append, hon]
      rcases hend with ⟨k, d, hd, hanswer, hpath⟩ | ⟨q, m, hstuck, hpath⟩
      · exact .inl ⟨k, d, hd, hanswer, fun s' => .onward (hfirst s') (hpath s')⟩
      · exact .inr ⟨q, m, hstuck, fun s' => .onward (hfirst s') (hpath s')⟩
    | chunk _ hon =>
      rw [hon] at hturn
      cases hturn
    | stuck hstuck => exact ⟨[], bs, rfl, .inr ⟨p, c, hstuck, fun s' => .refl⟩⟩

/-- **The way to the end of known bytes** is the same whatever comes behind those that it uses, and
there the converter is stuck. -/
theorem exists_path {c : Converter} (hroomy : c.reader.Roomy) (bs : List UInt8) :
    ∃ ks used later p m, bs = used ++ later ∧ Stuck p m later ∧
      ∀ s, Path .between (c.fresh.on (Stream.bytewise used ++ s)) ks p (m.on s) := by
  -- a failure behind the bytes makes an end to the turns, by what is left for the next chunk
  induction hsize : (c.on (Stream.bytewise bs ++ [.failure ""])).size using
      WellFounded.induction (Prod.lex Nat.lt_wfRel Nat.lt_wfRel).wf generalizing c bs with
  | _ size ih =>
    subst hsize
    obtain ⟨n, hanswers⟩ := answers_next (c.on (Stream.bytewise bs ++ [.failure ""]))
    have hstream : (c.on (Stream.bytewise bs ++ [.failure ""])).fresh =
        c.fresh.on (Stream.bytewise bs ++ .failure "" :: []) := rfl
    obtain ⟨used, later, hbs, hend⟩ := hanswers.exists_path hstream hroomy
    rcases hend with ⟨k, c', hroomy', hanswer, hpath⟩ | ⟨p, m, hstuck, hpath⟩
    · obtain ⟨ks, used', later', p, m, hlater, hstuck, hmore⟩ :=
        ih _ (precedes_of_next hanswer).lex hroomy' later rfl
      refine ⟨k :: ks, used ++ used', later', p, m, by rw [hbs, hlater, List.append_assoc],
        hstuck, fun s => ?_⟩
      rw [Stream.bytewise_append]
      exact (hpath _).trans (hmore s)
    · exact ⟨[], used, later, p, m, hbs, hstuck, hpath⟩

/-! ### Paths and conversions -/

/-- What a conversion comes to, by the answer to its next call. -/
def Run.ofAnswer : Except ReadError (Option Chunk) × Converter → Run
  | (.error e, c) => ⟨[], some e, c⟩
  | (.ok none, c) => ⟨[], none, c⟩
  | (.ok (some k), c) => { c.run with chunks := (k, c) :: c.run.chunks }

theorem run_eq_ofAnswer (c : Converter) : c.run = .ofAnswer c.next := by
  rw [run_eq]
  generalize c.next = answer
  obtain ⟨result, c'⟩ := answer
  rcases result with e | _ | k <;> rfl

/-- Every phase is answered. -/
theorem exists_answers (p : Phase) (c : Converter) : ∃ n answer, Answers n p c answer := by
  have of_put (c : Converter) (item : Item) : ∃ answer, (c.put item).Leads answer := by
    rw [put]
    split
    · exact ⟨_, .here rfl⟩
    · obtain ⟨n, hanswers⟩ := answers_advance _
      exact ⟨_, .later hanswers⟩
  cases p with
  | between =>
    obtain ⟨n, hanswers⟩ := answers_advance c
    exact ⟨n, _, hanswers⟩
  | seeking q =>
    suffices h : ∃ answer, (∀ e c', c.readOn q = (.error e, c') → answer = (.error e, c')) ∧
        ∀ item c', c.readOn q = (.ok item, c') → (c'.put item).Leads answer by
      obtain ⟨answer, herror, hitem⟩ := h
      obtain ⟨n, hanswers⟩ := exists_answers_readOn q herror hitem
      exact ⟨n, answer, hanswers⟩
    generalize c.readOn q = result
    obtain ⟨answer?, c'⟩ := result
    cases answer? with
    | error e =>
      refine ⟨(.error e, c'), ?_, ?_⟩
      · intro e' d h
        cases h
        rfl
      · intro item d h
        cases h
    | ok item =>
      obtain ⟨answer, hleads⟩ := of_put c' item
      refine ⟨answer, ?_, ?_⟩
      · intro e d h
        cases h
      · intro item' d h
        cases h
        exact hleads

/-- The chunks of a path come first, and then what the last of its phases is answered. -/
theorem Path.exists_answers {p p' : Phase} {c c' : Converter} {ks : List Chunk}
    (h : Path p c ks p' c') {n : Nat} {answer : Except ReadError (Option Chunk) × Converter}
    (hanswer : Answers n p' c' answer) :
    ∃ m first, Answers m p c first ∧
      (Run.ofAnswer first).chunks.map Prod.fst = ks ++ (Run.ofAnswer answer).chunks.map Prod.fst ∧
      (Run.ofAnswer first).failure = (Run.ofAnswer answer).failure ∧
      (Run.ofAnswer first).final = (Run.ofAnswer answer).final := by
  induction h with
  | refl => exact ⟨n, answer, hanswer, rfl, rfl, rfl⟩
  | onward hturn _ ih =>
    obtain ⟨m, first, hfirst, hrun⟩ := ih hanswer
    exact ⟨m + 1, first, .onward hturn hfirst, hrun⟩
  | @chunk p p'' c c' c'' k ks hturn _ ih =>
    obtain ⟨m, first, hfirst, hchunks, hfailure, hfinal⟩ := ih hanswer
    rw [← next_eq_of_answers hfirst, ← run_eq_ofAnswer] at hchunks hfailure hfinal
    refine ⟨1, (.ok (some k), c'), .last hturn, ?_, hfailure, hfinal⟩
    exact congrArg (k :: ·) hchunks

/-- What a conversion comes to, by a path and what its last phase is answered. -/
theorem Path.run_eq {p : Phase} {c m : Converter} {ks : List Chunk}
    (h : Path .between c.fresh ks p m) {n : Nat}
    {answer : Except ReadError (Option Chunk) × Converter} (hanswer : Answers n p m answer) :
    c.run.chunks.map Prod.fst = ks ++ (Run.ofAnswer answer).chunks.map Prod.fst ∧
      c.run.failure = (Run.ofAnswer answer).failure ∧
      c.run.final = (Run.ofAnswer answer).final := by
  obtain ⟨m, first, hfirst, hrun⟩ := h.exists_answers hanswer
  rwa [← next_eq_of_answers hfirst, ← run_eq_ofAnswer] at hrun

/-- The turns to an answer are a path to the last of them. -/
theorem Answers.exists_last {n : Nat} {p : Phase} {c : Converter}
    {answer : Except ReadError (Option Chunk) × Converter} (h : Answers n p c answer) :
    ∃ p' m, Path p c [] p' m ∧ m.turn p' = .answer answer.1 answer.2 := by
  induction h with
  | last hturn => exact ⟨_, _, .refl, hturn⟩
  | onward hturn _ ih =>
    obtain ⟨p', m, hpath, hlast⟩ := ih
    exact ⟨p', m, .onward hturn hpath, hlast⟩

/-- A call that returns a chunk is a path to the next call. -/
theorem path_of_next {c c' : Converter} {k : Chunk} (h : c.next = (.ok (some k), c')) :
    Path .between c.fresh [k] .between c'.fresh := by
  obtain ⟨n, hanswers⟩ := answers_next c
  rw [h] at hanswers
  obtain ⟨p, m, hpath, hlast⟩ := hanswers.exists_last
  exact hpath.trans (.chunk hlast .refl)

/-- In a conversion that fails, there is a path to the turn that fails. -/
theorem exists_path_of_run {c : Converter} {e : ReadError} (h : c.run.failure = some e) :
    ∃ ks p m m', Path .between c.fresh ks p m ∧ m.turn p = .answer (.error e) m' := by
  fun_induction run c with
  | case1 c e' c' hnext =>
    cases h
    obtain ⟨n, hanswers⟩ := answers_next c
    rw [hnext] at hanswers
    obtain ⟨p, m, hpath, hlast⟩ := hanswers.exists_last
    exact ⟨[], p, m, c', hpath, hlast⟩
  | case2 => cases h
  | case3 c k c' hnext _ _ ih =>
    obtain ⟨ks, p, m, m', hpath, hfails⟩ := ih h
    exact ⟨k :: ks, p, m, m', (path_of_next hnext).trans hpath, hfails⟩

/-- The chunks of a path are the first ones of the conversion. -/
theorem Path.prefix_chunks {p : Phase} {c m : Converter} {ks : List Chunk}
    (h : Path .between c.fresh ks p m) : ks <+: c.run.chunks.map Prod.fst := by
  obtain ⟨n, answer, hanswer⟩ := Converter.exists_answers p m
  rw [(h.run_eq hanswer).1]
  exact List.prefix_append ks _

end Converter

end BodyText
