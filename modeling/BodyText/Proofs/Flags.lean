import BodyText.Proofs.PlainText

/-!
# What the flags say

The two flags on lines are not computed from the text, which may have been handed out: each
operation keeps them up to date. They say what all of the text ends with, also the part that was
handed out, where the start of the text counts as a blank line; and a space is pending only behind
some text of the line, outside of preformatted text (`Layout.Stands`). Every operation keeps this
so, whatever it writes; so it holds of what any operations in any order come to
(`Layout.History.flags_exact`).
-/

namespace BodyText

/-- A text behind a blank line, which is where every text starts. -/
def belowBlankLine (cs : List Char) : List Char := '\n' :: '\n' :: cs

theorem belowBlankLine_concat (cs : List Char) (c : Char) :
    belowBlankLine (cs ++ [c]) = belowBlankLine cs ++ [c] :=
  rfl

/-- The text ends with a line end, or has not begun. -/
def EndsLine (cs : List Char) : Prop := ['\n'] <:+ belowBlankLine cs

/-- The text ends with a blank line, or has not begun. -/
def EndsBlankLine (cs : List Char) : Prop := ['\n', '\n'] <:+ belowBlankLine cs

theorem endsLine_nil : EndsLine [] := ⟨['\n'], rfl⟩

theorem endsBlankLine_nil : EndsBlankLine [] := ⟨[], rfl⟩

theorem endsLine_concat {cs : List Char} {c : Char} : EndsLine (cs ++ [c]) ↔ c = '\n' := by
  rw [EndsLine, belowBlankLine_concat, List.suffix_concat_iff]
  constructor
  · rintro (hnil | ⟨t, ht, -⟩)
    · cases hnil
    · exact (List.append_singleton_inj.1 (show [] ++ ['\n'] = t ++ [c] from ht)).2.symm
  · rintro rfl
    exact .inr ⟨[], rfl, List.nil_suffix⟩

theorem endsBlankLine_concat {cs : List Char} {c : Char} :
    EndsBlankLine (cs ++ [c]) ↔ c = '\n' ∧ EndsLine cs := by
  rw [EndsBlankLine, belowBlankLine_concat, List.suffix_concat_iff]
  constructor
  · rintro (hnil | ⟨t, ht, hsuffix⟩)
    · cases hnil
    · obtain ⟨rfl, hc⟩ := List.append_singleton_inj.1 (show ['\n'] ++ ['\n'] = t ++ [c] from ht)
      exact ⟨hc.symm, hsuffix⟩
  · rintro ⟨rfl, hends⟩
    exact .inr ⟨['\n'], rfl, hends⟩

theorem EndsBlankLine.endsLine {cs : List Char} (h : EndsBlankLine cs) : EndsLine cs :=
  List.IsSuffix.trans ⟨['\n'], rfl⟩ h

/-- A text that does not end its line ends with some other character than a line end. -/
theorem exists_getLast?_of_not_endsLine {cs : List Char} (h : ¬ EndsLine cs) :
    ∃ c, cs.getLast? = some c ∧ c ≠ '\n' := by
  rcases List.eq_nil_or_concat cs with rfl | ⟨cs, c, rfl⟩
  · exact absurd endsLine_nil h
  · rw [List.concat_eq_append] at h ⊢
    exact ⟨c, List.getLast?_concat, fun hc => h (endsLine_concat.2 hc)⟩

namespace Layout

variable {before : List Char} {l : Layout}

/-- All of the text of a layout, when some of it was handed out before. -/
def whole (before : List Char) (l : Layout) : List Char := before ++ l.text.toList

@[simp] theorem whole_emit (before : List Char) (l : Layout) (c : Char) :
    (l.emit c).whole before = l.whole before ++ [c] := by
  rw [whole, text_emit, String.toList_push, ← List.append_assoc, whole]

@[simp] theorem whole_clear (before : List Char) (l : Layout) :
    l.clear.whole (l.whole before) = l.whole before := by
  rw [whole, clear, String.toList_empty, List.append_nil]

/-- The flags of a layout say where its text ends, when some of the text was handed out before. -/
structure Stands (before : List Char) (l : Layout) : Prop where
  /-- The first flag tells the end of a line. -/
  atLineStart : l.atLineStart = true ↔ EndsLine (l.whole before)
  /-- The second flag tells a blank line. -/
  afterBlankLine : l.afterBlankLine = true ↔ EndsBlankLine (l.whole before)
  /-- A space is pending within a line only, and outside of preformatted text. -/
  spacePending : l.spacePending = true → l.atLineStart = false ∧ l.preformatted = false

theorem stands_start : Stands [] {} where
  atLineStart := iff_of_true rfl endsLine_nil
  afterBlankLine := iff_of_true rfl endsBlankLine_nil
  spacePending := nofun

theorem Stands.not_endsLine (h : l.Stands before) (hspace : l.spacePending = true) :
    ¬ EndsLine (l.whole before) := by
  rw [← h.atLineStart, (h.spacePending hspace).1]
  exact Bool.false_ne_true

theorem Stands.dropSpace (h : l.Stands before) : l.dropSpace.Stands before :=
  ⟨h.atLineStart, h.afterBlankLine, nofun⟩

theorem Stands.clear (h : l.Stands before) : l.clear.Stands (l.whole before) where
  atLineStart := (whole_clear before l).symm ▸ h.atLineStart
  afterBlankLine := (whole_clear before l).symm ▸ h.afterBlankLine
  spacePending := h.spacePending

/-- Writing a character, which is no line end while a space is pending. -/
theorem Stands.emit (h : l.Stands before) {c : Char} (hc : c = '\n' → l.spacePending = false) :
    (l.emit c).Stands before := by
  refine ⟨?_, ?_, ?_⟩
  · rw [whole_emit, endsLine_concat, Layout.emit]
    split
    · rename_i hnewline
      exact iff_of_true rfl hnewline
    · rename_i hother
      exact iff_of_false Bool.false_ne_true hother
  · rw [whole_emit, endsBlankLine_concat, Layout.emit]
    split
    · rename_i hnewline
      rw [← h.atLineStart]
      exact (and_iff_right hnewline).symm
    · rename_i hother
      exact iff_of_false Bool.false_ne_true fun hboth => hother hboth.1
  · intro hspace
    rw [Layout.emit] at hspace ⊢
    split at hspace
    · rename_i hnewline
      exact absurd hspace (by rw [hc hnewline]; exact Bool.false_ne_true)
    · rename_i hother
      rw [if_neg hother]
      exact ⟨rfl, (h.spacePending hspace).2⟩

theorem Stands.blank (h : l.Stands before) : l.blank.Stands before := by
  rw [Layout.blank]
  split
  · rename_i hcounts
    rw [Bool.and_eq_true, Bool.not_eq_true', Bool.not_eq_true'] at hcounts
    exact ⟨h.atLineStart, h.afterBlankLine, fun _ => ⟨hcounts.2, hcounts.1⟩⟩
  · exact h

/-- In a layout that stands right, the pending space is all that decides if one goes out. -/
theorem Stands.flush_eq (h : l.Stands before) :
    l.flush = if l.spacePending then l.dropSpace.emit ' ' else l := by
  rw [flush]
  cases hspace : l.spacePending with
  | false => rfl
  | true => simp [(h.spacePending hspace).2, Layout.dropSpace]

theorem Stands.flush (h : l.Stands before) :
    l.flush.Stands before ∧ l.flush.spacePending = false := by
  rw [h.flush_eq]
  split
  · exact ⟨h.dropSpace.emit fun _ => rfl, rfl⟩
  · rename_i hspace
    exact ⟨h, by simpa using hspace⟩

theorem Stands.push (h : l.Stands before) (c : Char) : (l.push c).Stands before :=
  h.flush.1.emit fun _ => h.flush.2

@[simp] theorem spacePending_emit (l : Layout) (c : Char) :
    (l.emit c).spacePending = l.spacePending := by
  unfold Layout.emit
  split <;> rfl

@[simp] theorem spacePending_foldl_emit (cs : List Char) (l : Layout) :
    (cs.foldl Layout.emit l).spacePending = l.spacePending := by
  induction cs generalizing l with
  | nil => rfl
  | cons c cs ih => rw [List.foldl_cons, ih, spacePending_emit]

theorem Stands.foldl_emit (h : l.Stands before) (hspace : l.spacePending = false)
    (cs : List Char) :
    (cs.foldl Layout.emit l).Stands before := by
  induction cs generalizing l with
  | nil => exact h
  | cons c cs ih =>
    exact ih (h.emit fun _ => hspace) ((spacePending_emit l c).trans hspace)

theorem Stands.append (h : l.Stands before) (s : String) : (l.append s).Stands before :=
  h.flush.1.foldl_emit h.flush.2 s.toList

theorem Stands.startLine (h : l.Stands before) : l.startLine.Stands before := by
  rw [Layout.startLine]
  split
  · exact h
  · exact h.dropSpace.emit fun _ => rfl

/-- No space is pending at the start of a line. -/
theorem Stands.spacePending_startLine (h : l.Stands before) :
    l.startLine.spacePending = false := by
  rw [Layout.startLine]
  split
  · rename_i hstart
    refine Bool.eq_false_iff.2 fun hspace => ?_
    exact Bool.false_ne_true ((h.spacePending hspace).1.symm.trans hstart)
  · exact spacePending_emit _ _

/-- Starting a line leaves no blank line where there is none. -/
theorem afterBlankLine_startLine {l : Layout} (h : l.afterBlankLine = false) :
    l.startLine.afterBlankLine = false := by
  rw [Layout.startLine]
  split
  · exact h
  · rename_i hstart
    exact Bool.eq_false_iff.2 hstart

theorem Stands.leaveBlankLine (h : l.Stands before) : l.leaveBlankLine.Stands before := by
  rw [Layout.leaveBlankLine]
  split
  · exact h.dropSpace
  · exact h.dropSpace.startLine.emit fun _ => h.dropSpace.spacePending_startLine

theorem Stands.setPreformatted (h : l.Stands before) (on : Bool) :
    (l.setPreformatted on).Stands before := by
  refine ⟨h.atLineStart, h.afterBlankLine, fun hspace => ?_⟩
  obtain ⟨hpending, hoff⟩ := Bool.and_eq_true_iff.1 hspace
  exact ⟨(h.spacePending hpending).1, by simpa [Layout.setPreformatted] using hoff⟩

/-! ### Line ends as needed -/

/-- Behind the text of `l`, `l'` has the least number of line ends, two at most, that make all of the
text end in a certain way; and no space is pending in it. -/
def Completes (ends : List Char → Prop) (before : List Char) (l l' : Layout) : Prop :=
  ∃ n ≤ 2, l'.text.toList = l.text.toList ++ List.replicate n '\n' ∧
    ends (l.whole before ++ List.replicate n '\n') ∧
    (∀ m < n, ¬ ends (l.whole before ++ List.replicate m '\n')) ∧ l'.spacePending = false

theorem toList_text_emit (l : Layout) (c : Char) :
    (l.emit c).text.toList = l.text.toList ++ [c] := by
  rw [text_emit, String.toList_push]

/-- A new line is started by one line end, and where the text ends a line by none. -/
theorem Stands.completes_startLine (h : l.Stands before) :
    Completes EndsLine before l l.startLine := by
  have hspace := h.spacePending_startLine
  rw [Layout.startLine] at hspace ⊢
  split
  · rename_i hstart
    rw [if_pos hstart] at hspace
    refine ⟨0, by omega, by simp, ?_, fun m hm => absurd hm (Nat.not_lt_zero m), hspace⟩
    rw [List.replicate_zero, List.append_nil]
    exact h.atLineStart.1 hstart
  · rename_i hstart
    refine ⟨1, by omega, toList_text_emit _ _, endsLine_concat.2 rfl, ?_, spacePending_emit _ _⟩
    intro m hm
    obtain rfl : m = 0 := by omega
    rw [List.replicate_zero, List.append_nil]
    exact mt h.atLineStart.2 hstart

/-- A blank line is left by two line ends, where the text ends a line by one, and behind a blank line by
none. -/
theorem Stands.completes_leaveBlankLine (h : l.Stands before) :
    Completes EndsBlankLine before l l.leaveBlankLine := by
  rw [Layout.leaveBlankLine]
  split
  · rename_i hblank
    refine ⟨0, by omega, by simp [Layout.dropSpace], ?_, fun m hm => absurd hm (Nat.not_lt_zero m),
      rfl⟩
    rw [List.replicate_zero, List.append_nil]
    exact h.afterBlankLine.1 hblank
  · rename_i hblank
    have hspace : (l.dropSpace.startLine.emit '\n').spacePending = false :=
      (spacePending_emit _ _).trans h.dropSpace.spacePending_startLine
    have hnone : ¬ EndsBlankLine (l.whole before) := mt h.afterBlankLine.2 hblank
    by_cases hstart : l.atLineStart = true
    · have hsame : l.dropSpace.startLine = l.dropSpace := if_pos hstart
      rw [hsame] at hspace ⊢
      refine ⟨1, by omega, toList_text_emit _ _, ?_, ?_, hspace⟩
      · exact endsBlankLine_concat.2 ⟨rfl, h.atLineStart.1 hstart⟩
      · intro m hm
        obtain rfl : m = 0 := by omega
        rw [List.replicate_zero, List.append_nil]
        exact hnone
    · have hline : l.dropSpace.startLine = l.dropSpace.dropSpace.emit '\n' := if_neg hstart
      rw [hline] at hspace ⊢
      refine ⟨2, by omega, ?_, ?_, ?_, hspace⟩
      · rw [toList_text_emit, toList_text_emit, List.append_assoc]
        rfl
      · rw [show List.replicate 2 '\n' = ['\n'] ++ ['\n'] from rfl, ← List.append_assoc]
        exact endsBlankLine_concat.2 ⟨rfl, endsLine_concat.2 rfl⟩
      · intro m hm
        obtain rfl | rfl : m = 0 ∨ m = 1 := by omega
        · rw [List.replicate_zero, List.append_nil]
          exact hnone
        · -- one line end makes no blank line, since the text did not end a line before it
          exact fun hends => hstart (h.atLineStart.2 (endsBlankLine_concat.1 hends).2)

/-! ### Any operations -/

/-- What can be done to a layout. -/
inductive Operation where
  /-- Writes a character. -/
  | push (c : Char)
  /-- Writes some text. -/
  | append (s : String)
  /-- Takes note of a blank. -/
  | blank
  /-- Forgets the pending space. -/
  | dropSpace
  /-- Starts a new line. -/
  | startLine
  /-- Leaves a blank line. -/
  | leaveBlankLine
  /-- Starts or ends preformatted text. -/
  | setPreformatted (on : Bool)
  /-- Hands the text out. -/
  | clear
  deriving DecidableEq, Repr

/-- A layout, with the text that was handed out from it. -/
structure History where
  /-- All that was handed out. -/
  handedOut : List Char := []
  /-- The layout. -/
  layout : Layout := {}

namespace History

/-- All of the text. -/
def whole (h : History) : List Char := h.layout.whole h.handedOut

/-- Does one thing to the layout. -/
def perform (h : History) : Operation → History
  | .push c => { h with layout := h.layout.push c }
  | .append s => { h with layout := h.layout.append s }
  | .blank => { h with layout := h.layout.blank }
  | .dropSpace => { h with layout := h.layout.dropSpace }
  | .startLine => { h with layout := h.layout.startLine }
  | .leaveBlankLine => { h with layout := h.layout.leaveBlankLine }
  | .setPreformatted on => { h with layout := h.layout.setPreformatted on }
  | .clear => { handedOut := h.whole, layout := h.layout.clear }

/-- The history of a new layout to which some things were done, one after the other. -/
def after (operations : List Operation) : History := operations.foldl perform {}

/-- The flags of the layout say where all of the text ends. -/
def Stands (h : History) : Prop := h.layout.Stands h.handedOut

theorem Stands.perform {h : History} (hstands : h.Stands) (operation : Operation) :
    (h.perform operation).Stands := by
  cases operation with
  | push c => exact Layout.Stands.push hstands c
  | append s => exact Layout.Stands.append hstands s
  | blank => exact Layout.Stands.blank hstands
  | dropSpace => exact Layout.Stands.dropSpace hstands
  | startLine => exact Layout.Stands.startLine hstands
  | leaveBlankLine => exact Layout.Stands.leaveBlankLine hstands
  | setPreformatted on => exact Layout.Stands.setPreformatted hstands on
  | clear => exact Layout.Stands.clear hstands

theorem stands_after (operations : List Operation) : (after operations).Stands :=
  List.foldlRecOn operations perform stands_start fun _ hstands operation _ =>
    hstands.perform operation

/-- **The flags are exact**, whatever was done to a layout, in any order. Counting a blank line before
the text, and all that was handed out as part of it: the one flag is set exactly where the text ends a line,
the other one exactly behind a blank line; a space is pending only within a line, and outside of
preformatted text; and starting a line or leaving a blank line adds no more line ends than that needs, and
forgets the pending space. -/
theorem flags_exact (operations : List Operation) :
    ((after operations).layout.atLineStart = true ↔
        ['\n'] <:+ '\n' :: '\n' :: (after operations).whole) ∧
      ((after operations).layout.afterBlankLine = true ↔
        ['\n', '\n'] <:+ '\n' :: '\n' :: (after operations).whole) ∧
      ((after operations).layout.spacePending = true →
        (after operations).layout.atLineStart = false ∧
          (after operations).layout.preformatted = false) ∧
      Completes EndsLine (after operations).handedOut (after operations).layout
        (after operations).layout.startLine ∧
      Completes EndsBlankLine (after operations).handedOut (after operations).layout
        (after operations).layout.leaveBlankLine := by
  have hstands := stands_after operations
  exact ⟨hstands.atLineStart, hstands.afterBlankLine, hstands.spacePending,
    Layout.Stands.completes_startLine hstands, Layout.Stands.completes_leaveBlankLine hstands⟩

end History

end Layout

end BodyText
