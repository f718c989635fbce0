import Mathlib
import BodyText.Proofs.Paths
import BodyText.Proofs.ToldChunks

/-!
# Failures

A failure of the input is neither lost nor told too early. Behind the bytes of a steady stream it is
what the conversion ends with, whatever the converter was doing then; it is told as the last event,
once; and the chunks before it are the first ones of every other continuation of the stream
(`Converter.run_of_failure`).
-/

namespace BodyText

namespace Stream

/-- The finest delivery of a steady stream is that of its bytes, one by one. -/
theorem Steady.trickle_append {s : Stream} (h : s.Steady) (s' : Stream) :
    (s ++ s').trickle = bytewise s.bytes ++ s'.trickle := by
  induction s with
  | nil => rfl
  | cons f s ih =>
    have hs := ih fun g hg => h g (List.mem_cons_of_mem f hg)
    cases f with
    | segment bs =>
      rw [List.cons_append, trickle_segment, hs, bytes, bytewise_append]
      rfl
    | interrupted => exact hs
    | failure cause => exact absurd (h _ List.mem_cons_self) Bool.false_ne_true
    | pause => exact absurd (h _ List.mem_cons_self) Bool.false_ne_true

theorem Steady.trickle_eq {s : Stream} (h : s.Steady) : s.trickle = bytewise s.bytes := by
  have happend := h.trickle_append []
  rwa [List.append_nil, show trickle [] = [] from rfl, List.append_nil] at happend

end Stream

namespace Converter

/-- A conversion does not tell how its input is delivered. -/
theorem run_trickle {c : Converter} (h : c.reader.Roomy) :
    c.trickle.run.chunks.map Prod.fst = c.run.chunks.map Prod.fst ∧
      c.trickle.run.failure = c.run.failure ∧ c.trickle.run.final = c.run.final.trickle ∧
      c.run.final.reader.Roomy := by
  fun_induction run c with
  | case1 c e c' hnext =>
    obtain ⟨heq, hroomy⟩ := blind_next c h
    rw [hnext] at heq hroomy
    rw [run_eq, heq]
    exact ⟨rfl, rfl, rfl, hroomy⟩
  | case2 c c' hnext =>
    obtain ⟨heq, hroomy⟩ := blind_next c h
    rw [hnext] at heq hroomy
    rw [run_eq, heq]
    exact ⟨rfl, rfl, rfl, hroomy⟩
  | case3 c k c' hnext _ _ ih =>
    obtain ⟨heq, hroomy⟩ := blind_next c h
    rw [hnext] at heq hroomy
    obtain ⟨hchunks, hfailure, hfinal, hroomy'⟩ := ih hroomy
    rw [run_eq, heq]
    exact ⟨congrArg (k :: ·) hchunks, hfailure, hfinal, hroomy'⟩

/-- The conversion of a body, byte by byte behind a steady start. -/
theorem trickle_start {s₁ : Stream} (h : s₁.Steady) (s₂ : Stream) (charset : Charset)
    (config : Config) :
    (start (s₁ ++ s₂) charset config).trickle =
      (start [] charset config).on (Stream.bytewise s₁.bytes ++ s₂.trickle) := by
  rw [← h.trickle_append]
  rfl

/-- The chunks that the bytes of a steady start make, and where the converter is stuck behind them,
whatever follows. -/
theorem exists_path_start {s₁ : Stream} (h : s₁.Steady) (charset : Charset) (config : Config) :
    ∃ ks p m later, Stuck p m later ∧
      ∀ s, Path .between (start (s₁ ++ s) charset config).trickle.fresh ks p
        (m.on (Stream.bytewise later ++ s.trickle)) := by
  have hroomy : (start [] charset config).reader.Roomy := Reader.roomy_start ..
  obtain ⟨ks, used, later, p, m, hbytes, hstuck, hpath⟩ := exists_path hroomy s₁.bytes
  refine ⟨ks, p, m, later, hstuck, fun s => ?_⟩
  rw [trickle_start h, hbytes, Stream.bytewise_append]
  exact hpath _

/-- Where the converter is stuck, the failure is the answer. -/
theorem Stuck.run_eq {c m : Converter} {p : Phase} {later : List UInt8} (h : Stuck p m later)
    (hroomy : c.reader.Roomy) {ks : List Chunk} {cause : String} {s : Stream}
    (hpath : Path .between c.trickle.fresh ks p
      (m.on (Stream.bytewise later ++ .failure cause :: s.trickle))) :
    c.run.chunks.map Prod.fst = ks ∧ c.run.failure = some ⟨cause⟩ ∧
      c.run.final.trickle = m.cutOff s.trickle := by
  obtain ⟨hchunks, hfailure, hfinal⟩ := hpath.run_eq (.last (h.fails cause s.trickle))
  obtain ⟨hchunks', hfailure', hfinal', -⟩ := run_trickle hroomy
  exact ⟨hchunks'.symm.trans (hchunks.trans (List.append_nil ks)), hfailure'.symm.trans hfailure,
    hfinal'.symm.trans hfinal⟩

/-- **A failure ends the conversion**, and not before it is there: calls for chunks return the
chunks of the conversion and then the failure, when all bytes before it were read; no text of the
body is given. The events are those of the chunks, then the failure, and then there are no more. In
any other continuation of the stream, the conversion begins with the same chunks. -/
theorem run_of_failure {s₁ s₂ : Stream} (h : s₁.Steady) {cause : String} {charset : Charset}
    {config : Config} {c : Converter}
    (hc : c = start (s₁ ++ .failure cause :: s₂) charset config) :
    plainText (s₁ ++ .failure cause :: s₂) charset config = .error ⟨cause⟩ ∧
      c.run.failure = some ⟨cause⟩ ∧ c.run.final.reader.stream.bytes = s₂.bytes ∧
      (∀ n, (c.events.take n).1 =
        ((c.run.events.map Except.ok ++ [Except.error (ReadError.mk cause)]).map some ++
          List.replicate n none).take n) ∧
      ∀ s₃, c.run.chunks.map Prod.fst <+:
        (start (s₁ ++ s₃) charset config).run.chunks.map Prod.fst := by
  have hroomy (s : Stream) : (start s charset config).reader.Roomy := Reader.roomy_start ..
  obtain ⟨ks, p, m, later, hstuck, hpath⟩ := exists_path_start h charset config
  obtain ⟨hchunks, hfailure, hfinal⟩ := hstuck.run_eq (hroomy _) (hpath (.failure cause :: s₂))
  rw [← hc] at hchunks hfailure hfinal
  refine ⟨?_, hfailure, ?_, ?_, ?_⟩
  · rw [plainText, ← hc]
    simp only [hfailure]
  · have hstream : c.run.final.reader.stream.trickle = s₂.trickle :=
      congrArg (·.reader.stream) hfinal
    rw [← Stream.bytes_trickle, hstream, Stream.bytes_trickle]
  · intro n
    have hlink : c.writer.link = none := hc ▸ rfl
    have hepilogue : c.run.epilogue = [.error ⟨cause⟩] := by
      rw [Run.epilogue, hfailure]
    rw [EventStream.take_eq, all_events, hlink, hepilogue]
    rfl
  · intro s₃
    obtain ⟨hchunks₃, -⟩ := run_trickle (hroomy (s₁ ++ s₃))
    rw [hchunks, ← hchunks₃]
    exact (hpath s₃).prefix_chunks

/-- A failure in the second line of a body, behind its first letter. -/
def failedInLine : Converter :=
  start ([.segment [0x61, 0x0A, 0x62]] ++ .failure "lost" :: [.segment [0x63]]) .utf8 {}

/-- The chunk of the first line stands before the failure, and at the start of every other
continuation. -/
theorem run_of_failure_in_line :
    Stream.Steady [.segment [0x61, 0x0A, 0x62]] ∧
      plainText ([.segment [0x61, 0x0A, 0x62]] ++ .failure "lost" :: [.segment [0x63]]) .utf8 {} =
        .error ⟨"lost"⟩ ∧
      ∀ s₃, [⟨"a", none, .normal⟩] <+:
        (start ([.segment [0x61, 0x0A, 0x62]] ++ s₃) .utf8 {}).run.chunks.map Prod.fst := by
  have hsteady := Stream.steady_segment [0x61, 0x0A, 0x62]
  have hchunks : failedInLine.run.chunks.map Prod.fst = [⟨"a", none, .normal⟩] := by cbv
  obtain ⟨htext, -, -, -, hprefix⟩ := run_of_failure hsteady (rfl : failedInLine = _)
  exact ⟨hsteady, htext, hchunks ▸ hprefix⟩

end Converter

end BodyText
