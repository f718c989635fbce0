import BodyText.Host
import BodyText.Proofs.Conversion
import Mathlib

/-!
# What a host is told

A body in memory is always read to its end, so a call that converts fails only when the host points
nowhere for a body that is not empty (`Host.failure?_run?_eq_none_iff`). The last error is then that of the
last call that converted (`Host.errorAfter_of_last`). A host that asks for the pieces of a body is told the
same text as one that asks for all of it (`Host.withoutNul_text`), and neither sees a NUL. All this holds
whatever charsets are known by their labels, and whatever they decode to.
-/

namespace BodyText

namespace Host

/-! ### Texts without NUL -/

theorem withoutNul_append (s t : String) : withoutNul (s ++ t) = withoutNul s ++ withoutNul t := by
  rw [withoutNul, String.toList_append, List.map_append, String.ofList_append, withoutNul, withoutNul]

theorem nul_not_mem_withoutNul (s : String) : '\x00' ∉ (withoutNul s).toList := by
  rw [withoutNul, String.toList_ofList]
  intro hmem
  obtain ⟨c, -, hc⟩ := List.mem_map.1 hmem
  split at hc
  · exact absurd hc (by decide)
  · contradiction

theorem withoutNul_eq_empty_iff {s : String} : withoutNul s = "" ↔ s = "" := by
  rw [← String.toList_inj, withoutNul, String.toList_ofList, ← String.toList_inj]
  exact List.map_eq_nil_iff

/-- The pieces that are delivered are the whole text. -/
theorem withoutNul_text (run : Converter.Run) :
    withoutNul run.text = String.join ((delivered run).map Prod.fst) := by
  rw [Converter.Run.text, delivered]
  induction run.chunks with
  | nil => rfl
  | cons k ks ih =>
    rw [List.map_cons, String.join_cons, withoutNul_append, ih]
    by_cases hempty : k.1.text = ""
    · rw [List.filter_cons_of_neg (by simpa using hempty), hempty]
      exact String.empty_append
    · rw [List.filter_cons_of_pos (by simpa using hempty), List.map_cons, List.map_cons,
        String.join_cons]

/-- Nothing that is delivered is empty or holds a NUL. -/
theorem of_mem_delivered {run : Converter.Run} {piece : String × Option String}
    (h : piece ∈ delivered run) :
    piece.1 ≠ "" ∧ '\x00' ∉ piece.1.toList ∧ ∀ link ∈ piece.2, '\x00' ∉ link.toList := by
  obtain ⟨k, hk, rfl⟩ := List.mem_map.1 h
  have hne : k.1.text ≠ "" := by simpa using (List.mem_filter.1 hk).2
  refine ⟨fun hempty => hne (withoutNul_eq_empty_iff.1 hempty), nul_not_mem_withoutNul _, ?_⟩
  intro link hlink
  obtain ⟨target, -, rfl⟩ := Option.map_eq_some_iff.1 hlink
  exact nul_not_mem_withoutNul target

/-! ### Conversions of a body in memory -/

namespace Request

/-- The host points nowhere for a body that is not empty. -/
def Missing (r : Request) : Prop := r.bytes = none ∧ 0 < r.length

instance (r : Request) : Decidable r.Missing := inferInstanceAs (Decidable (_ ∧ _))

theorem body?_eq_none_iff {r : Request} : r.body? = none ↔ r.Missing := by
  rw [body?, Missing]
  cases r.bytes with
  | none => simp [Nat.pos_iff_ne_zero]
  | some bytes => simp

variable {r : Request} {known : Catalogue}

theorem run?_eq_none_iff : r.run? known = none ↔ r.Missing := by
  rw [run?, Option.map_eq_none_iff, body?_eq_none_iff]

/-- A body in memory is read to its end. -/
theorem failure_run_converter (r : Request) (known : Catalogue) (body : List UInt8) :
    (r.converter known body).run.failure = none := by
  have hstream : Stream.Unbroken [.segment body] := trivial
  have hsteady : (r.converter known body).Steady True :=
    ⟨Reader.steady_start hstream _ _, fun _ _ _ => trivial⟩
  exact (Converter.delivers_run hsteady).1

/-- The charset that the label names, or UTF-8 when there is no label or none is known by it. -/
theorem charset_eq (r : Request) (known : Catalogue) :
    r.charset known = (r.label?.bind known.ofLabel?).getD .utf8 := by
  rw [charset]
  cases r.label? with
  | none => rfl
  | some label => rfl

end Request

/-- A conversion fails only for want of a body. -/
theorem failure?_run?_eq_none_iff {r : Request} {known : Catalogue} :
    failure? (r.run? known) = none ↔ ¬ r.Missing := by
  rw [← Request.run?_eq_none_iff, Request.run?]
  cases r.body? with
  | none => exact iff_of_false (Option.some_ne_none _) (not_not_intro rfl)
  | some body =>
    rw [Option.map_some, failure?, r.failure_run_converter]
    exact iff_of_true rfl (Option.some_ne_none _)

/-! ### One call -/

/-- The body that a call converts, if it converts one. -/
def Call.request? : Call → Option Request
  | .text r | .chunks r => some r
  | .version | .lastError | .release => none

/-- Whether a call that converts has failed. -/
def Reply.failed : Reply → Bool
  | .text s => s.isNone
  | .chunks ok _ => !ok

section

variable {call : Call} {r : Request} (known : Catalogue) (lastError : Option Failure)

theorem reply_text (r : Request) :
    (Call.text r).reply known lastError =
      (.text ((r.run? known).map fun run => withoutNul run.text), failure? (r.run? known)) := by
  have hmissing : r.run? known = none ↔ r.Missing := Request.run?_eq_none_iff
  have hfailure : failure? (r.run? known) = none ↔ ¬ r.Missing := failure?_run?_eq_none_iff
  rw [Call.reply]
  cases hrun : r.run? known with
  | none => rfl
  | some run =>
    rw [← hmissing, hrun] at hfailure
    simp only [hfailure.2 (Option.some_ne_none run)]

/-- A call that converts nothing leaves the last error as it is. -/
theorem reply_of_request?_none (h : call.request? = none) :
    (call.reply known lastError).2 = lastError := by
  cases call with
  | version | lastError | release => rfl
  | text r | chunks r => cases h

/-- A call that converts forgets the last error. It fails exactly when there is an error to tell of
after it. -/
theorem reply_of_request? (h : call.request? = some r) :
    (call.reply known lastError).2 = failure? (r.run? known) ∧
      ((call.reply known lastError).1.failed = true ↔ (failure? (r.run? known)).isSome = true) := by
  cases call with
  | version | lastError | release => cases h
  | text r' =>
    cases h
    rw [reply_text]
    refine ⟨rfl, ?_⟩
    rw [Reply.failed, Option.isNone_map, Option.isNone_iff_eq_none, Request.run?_eq_none_iff,
      Option.isSome_iff_ne_none, ne_eq, failure?_run?_eq_none_iff, Decidable.not_not]
  | chunks r' =>
    cases h
    exact ⟨rfl, by simp [Call.reply, Reply.failed]⟩

end

/-! ### One call after the other -/

/-- The last error after some calls. -/
def errorAfter (known : Catalogue) (lastError : Option Failure) (calls : List Call) :
    Option Failure :=
  calls.foldl (fun e call => (call.reply known e).2) lastError

section

variable (known : Catalogue) (lastError : Option Failure)

theorem replies_cons (call : Call) (calls : List Call) :
    replies lastError (call :: calls) known =
      (call.reply known lastError).1 :: replies (call.reply known lastError).2 calls known :=
  rfl

/-- The reply to a call depends on the calls before it only through the last error. -/
theorem getElem?_replies (first : List Call) (call : Call) (later : List Call) :
    (replies lastError (first ++ call :: later) known)[first.length]? =
      some (call.reply known (errorAfter known lastError first)).1 := by
  induction first generalizing lastError with
  | nil => rfl
  | cons c first ih =>
    rw [List.cons_append, replies_cons, List.length_cons, List.getElem?_cons_succ, ih]
    rfl

/-- Calls that convert nothing leave the last error as it is. -/
theorem errorAfter_of_none {calls : List Call} (h : ∀ call ∈ calls, call.request? = none) :
    errorAfter known lastError calls = lastError := by
  induction calls with
  | nil => rfl
  | cons call calls ih =>
    rw [errorAfter, List.foldl_cons, reply_of_request?_none _ _ (h call List.mem_cons_self)]
    exact ih fun c hc => h c (List.mem_cons_of_mem call hc)

/-- The last error is that of the last call that converted. -/
theorem errorAfter_of_last {earlier later : List Call} {call : Call} {r : Request}
    (hcall : call.request? = some r) (hlater : ∀ c ∈ later, c.request? = none) :
    errorAfter known lastError (earlier ++ call :: later) = failure? (r.run? known) := by
  have hnone :=
    errorAfter_of_none known (call.reply known (errorAfter known lastError earlier)).2 hlater
  rw [errorAfter, List.foldl_append, List.foldl_cons]
  exact hnone.trans (reply_of_request? _ _ hcall).1

end

/-- Calls that convert nothing, or a last one that converts. -/
theorem exists_last_request (calls : List Call) :
    (∀ call ∈ calls, call.request? = none) ∨
      ∃ earlier call later r, calls = earlier ++ call :: later ∧ call.request? = some r ∧
        ∀ c ∈ later, c.request? = none := by
  induction calls with
  | nil => exact .inl fun call hcall => absurd hcall List.not_mem_nil
  | cons call calls ih =>
    rcases ih with hnone | ⟨earlier, last, later, r, rfl, hlast, hlater⟩
    · cases hcall : call.request? with
      | none => exact .inl (List.forall_mem_cons.2 ⟨hcall, hnone⟩)
      | some r => exact .inr ⟨[], call, calls, r, rfl, hcall, hnone⟩
    · exact .inr ⟨call :: earlier, last, later, r, rfl, hlast, hlater⟩

/-- The most recent call that converted has failed. -/
def LastFailed (known : Catalogue) (history : List Call) : Prop :=
  ∃ earlier call later reply, history = earlier ++ call :: later ∧ call.request?.isSome = true ∧
    (∀ c ∈ later, c.request? = none) ∧
    (replies none history known)[earlier.length]? = some reply ∧ reply.failed = true

/-- There is a last error exactly when the most recent call that converted has failed. -/
theorem isSome_errorAfter_iff (known : Catalogue) (history : List Call) :
    (errorAfter known none history).isSome = true ↔ LastFailed known history := by
  constructor
  · intro hsome
    rcases exists_last_request history with hnone | ⟨earlier, call, later, r, rfl, hcall, hlater⟩
    · rw [errorAfter_of_none known none hnone] at hsome
      cases hsome
    · rw [errorAfter_of_last known none hcall hlater] at hsome
      exact ⟨earlier, call, later, _, rfl, by rw [hcall]; rfl, hlater,
        getElem?_replies known none earlier call later, (reply_of_request? _ _ hcall).2.2 hsome⟩
  · rintro ⟨earlier, call, later, reply, rfl, hcall, hlater, hreply, hfailed⟩
    obtain ⟨r, hcall⟩ := Option.isSome_iff_exists.1 hcall
    rw [getElem?_replies] at hreply
    rw [errorAfter_of_last known none hcall hlater, ← (reply_of_request? known _ hcall).2,
      Option.some.inj hreply]
    exact hfailed

/-! ### What a host is told -/

/-- What a host is told of a body, when it asks for its text and when it asks for its pieces. -/
structure Agree (r : Request) (known : Catalogue) (text? : Option String) (ok : Bool)
    (pieces : List (String × Option String)) : Prop where
  /-- Both fail, or neither does. -/
  isSome_iff : text?.isSome = true ↔ ok = true
  /-- They fail exactly when the host points nowhere for a body that is not empty. -/
  ok_iff : ok = true ↔ ¬ (r.bytes = none ∧ 0 < r.length)
  /-- The pieces are the chunks of the conversion that have text, with spaces for NULs. -/
  pieces_eq : ok = true → ∃ body, r.body? = some body ∧
    pieces = (((Converter.start [.segment body] (r.charset known) {}).run.chunks.map Prod.fst).filter
      fun k => k.text ≠ "").map fun k => (withoutNul k.text, k.link.map withoutNul)
  /-- Together they are the text. -/
  text_eq : ok = true → text? = some (String.join (pieces.map Prod.fst))
  /-- None is empty or holds a NUL. -/
  clear : ∀ piece ∈ pieces,
    piece.1 ≠ "" ∧ '\x00' ∉ piece.1.toList ∧ ∀ link ∈ piece.2, '\x00' ∉ link.toList

theorem agree (r : Request) (known : Catalogue) :
    Agree r known ((r.run? known).map fun run => withoutNul run.text)
      (failure? (r.run? known)).isNone (((r.run? known).map delivered).getD []) := by
  have hok : (failure? (r.run? known)).isNone = true ↔ ¬ r.Missing := by
    rw [Option.isNone_iff_eq_none, failure?_run?_eq_none_iff]
  have hmissing : r.body? = none ↔ r.Missing := Request.body?_eq_none_iff
  cases hbody : r.body? with
  | none =>
    have hrun : r.run? known = none := by rw [Request.run?, hbody, Option.map_none]
    rw [hbody] at hmissing
    rw [hrun] at hok ⊢
    have hno := mt hok.1 (not_not_intro (hmissing.1 rfl))
    exact ⟨iff_of_false Bool.false_ne_true hno, hok, fun h => absurd h hno, fun h => absurd h hno,
      fun piece hpiece => absurd hpiece List.not_mem_nil⟩
  | some body =>
    have hrun : r.run? known = some (r.converter known body).run := by
      rw [Request.run?, hbody, Option.map_some]
    rw [hbody] at hmissing
    rw [hrun] at hok ⊢
    have hyes := hok.2 fun h => Option.some_ne_none body (hmissing.2 h)
    refine ⟨iff_of_true rfl hyes, hok, fun _ => ⟨body, hbody, ?_⟩,
      fun _ => congrArg some (withoutNul_text _), fun piece hpiece => of_mem_delivered hpiece⟩
    rw [List.filter_map, List.map_map]
    rfl

/-- **What a host is told of a body, and of the last error.** Whatever charsets are known by their labels,
and whatever was called before and will be after: what the host is told of a body when it asks for its text
agrees with what it is told when it asks for its pieces. The charset is the one that the label names; a label
that is missing, no text or not known means UTF-8. There is a last error exactly when the most recent call
that converted has failed. -/
theorem replies_of_calls (known : Catalogue) (history later : List Call) (r : Request) :
    (∃ text? ok pieces,
        (replies none (history ++ .text r :: later) known)[history.length]? =
          some (.text text?) ∧
        (replies none (history ++ .chunks r :: later) known)[history.length]? =
          some (.chunks ok pieces) ∧
        Agree r known text? ok pieces) ∧
      r.charset known = (r.label?.bind known.ofLabel?).getD .utf8 ∧
      ∃ message?,
        (replies none (history ++ .lastError :: later) known)[history.length]? =
          some (.text message?) ∧
        (message?.isSome = true ↔ LastFailed known history) := by
  refine ⟨⟨_, _, _, ?_, getElem?_replies known none history (.chunks r) later, agree r known⟩,
    r.charset_eq known, _, getElem?_replies known none history .lastError later, ?_⟩
  · rw [getElem?_replies, reply_text]
  · rw [Option.isSome_map, isSome_errorAfter_iff]

/-- A body of two bytes, š in the charset of its label and a NUL. -/
def latin2Body : Request :=
  ⟨some [0xB9, 0x00], 2, some [0x4C, 0x61, 0x74, 0x69, 0x6E, 0x32]⟩

/-- What a host that knows the label is told of that body, after one that is missing. -/
theorem replies_of_latin2Body :
    (replies none [.text ⟨none, 3, none⟩, .version, .chunks latin2Body] Encoding.catalogue)[2]? =
        some (.chunks true [("š ", none)]) ∧
      (replies none [.text ⟨none, 3, none⟩, .version, .text latin2Body] Encoding.catalogue)[2]? =
        some (.text (some "š ")) ∧
      (replies none [.text ⟨none, 3, none⟩, .version, .lastError] Encoding.catalogue)[2]? =
        some (.text (some "data is null")) ∧
      LastFailed Encoding.catalogue [.text ⟨none, 3, none⟩, .version] := by
  obtain ⟨⟨text?, ok, pieces, htext, hchunks, hagree⟩, hcharset, message?, hmessage, hiff⟩ :=
    replies_of_calls Encoding.catalogue [.text ⟨none, 3, none⟩, .version] [] latin2Body
  have hlatin2 : latin2Body.charset Encoding.catalogue = Encoding.iso8859_2.charset :=
    hcharset.trans rfl
  have hok : ok = true := hagree.ok_iff.2 (by decide)
  obtain ⟨body, hbody, hpieces⟩ := hagree.pieces_eq hok
  cases hbody
  rw [hlatin2] at hpieces
  have hpiece : pieces = [("š ", none)] := hpieces.trans (by cbv)
  have herror : (replies none [.text ⟨none, 3, none⟩, .version, .lastError]
      Encoding.catalogue)[2]? = some (.text (some "data is null")) := rfl
  have hlast : some (Reply.text (some "data is null")) = some (.text message?) :=
    herror.symm.trans hmessage
  obtain ⟨rfl⟩ := Reply.text.inj (Option.some.inj hlast)
  refine ⟨hchunks.trans (by rw [hok, hpiece]), htext.trans ?_, herror, hiff.1 rfl⟩
  rw [hagree.text_eq hok, hpiece]
  rfl

end Host

end BodyText
