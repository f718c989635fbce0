import BodyText.Proofs.Conversion

/-!
# Chunks and links

Each chunk has the link that was open before it, and the boundary that ended it tells the link that
is open after it (`Chunk.Leaves`). This holds for any converter and any stream, with its failures
and pauses (`Converter.links_next`): reading does nothing to the open link
(`Converter.noted_readItem`), and where a link opens or closes, a chunk ends
(`Writer.leaves_write`).
-/

namespace BodyText

/-- The link that is open after a chunk, told by what ended the chunk. -/
inductive Chunk.Leaves (k : Chunk) : Option String → Prop
  /-- A link opened. -/
  | opened {target : String} : k.boundary? = some .opens → Leaves k (some target)
  /-- The link closed. -/
  | closed : k.boundary? = some .closes → Leaves k none
  /-- Neither; then there is some text, and the same link is still open. -/
  | within : k.boundary? = none → k.text ≠ "" → Leaves k k.link

/-! ### Writing -/

namespace Writer

theorem Noted.link {p : Prop} {w w' : Writer} (h : Noted p w w') : w'.link = w.link := by
  induction h with
  | refl => rfl
  | note line _ _ ih => exact (link_report _ _).trans ih

theorem Noted.quiet {p : Prop} {w w' : Writer} (h : Noted p w w') (hw : w.Quiet) : w'.Quiet := by
  cases h with
  | refl => exact hw
  | note line _ _ => exact quiet_noteDegraded _ line

theorem leaves_perform {w w' : Writer} {tag : Tag} {action : Action} {k : Chunk}
    (h : w.perform tag action = (some k, w')) : k.Leaves w'.link := by
  cases action with
  | openLink =>
    unfold perform at h
    cases hvalue : tag.value? "href" with
    | none =>
      rw [hvalue] at h
      cases h
    | some target =>
      rw [hvalue] at h
      cases h
      exact .opened rfl
  | closeLink =>
    cases h
    exact .closed rfl
  | _ => cases h

theorem leaves_writeTag {w w' : Writer} {tag : Tag} {k : Chunk}
    (h : w.writeTag tag = (some k, w')) : k.Leaves w'.link := by
  unfold writeTag at h
  split at h
  · exact leaves_perform h
  · cases h

/-- A chunk that an item ends tells the link that is open after it. -/
theorem leaves_write {w w' : Writer} {item : Item} {k : Chunk}
    (h : w.write item = (some k, w')) : k.Leaves w'.link := by
  cases item with
  | tag text =>
    rw [write] at h
    split at h
    · cases h
    · exact leaves_writeTag h
    · exact leaves_writeTag h
  | _ => cases h

end Writer

namespace Converter

/-! ### Reading -/

theorem noted_refill (c : Converter) : Writer.Noted True c.writer c.refill.2.writer := by
  rw [refill]
  split
  · exact .refl
  · exact .refl
  · rename_i line r _
    by_cases hline : line.degraded = true
    · simp only [hline, if_true]
      exact .note _ trivial .refl
    · simp only [hline]
      exact .refl

theorem noted_readUntil (enough : List Char → Bool) (c : Converter) :
    Writer.Noted True c.writer (c.readUntil enough).2.writer := by
  fun_induction readUntil enough c with
  | case1 => exact .refl
  | case2 c _ e c' hrefill =>
    have hnoted := noted_refill c
    rwa [hrefill] at hnoted
  | case3 c _ c' hrefill =>
    have hnoted := noted_refill c
    rwa [hrefill] at hnoted
  | case4 c _ c' hrefill _ ih =>
    have hnoted := noted_refill c
    rw [hrefill] at hnoted
    exact hnoted.trans ih

theorem noted_search (s : Search) (c : Converter) :
    Writer.Noted True c.writer (c.search s).2.writer := by
  rw [search_eq_readUntil]
  exact noted_readUntil s.occurs c

theorem noted_skipBlock (b : Block) (c : Converter) :
    Writer.Noted True c.writer (c.skipBlock b).2.writer := by
  have hnoted := noted_search (.marker b.closing) c
  unfold skipBlock
  split <;> rename_i hsearch <;> rwa [hsearch] at hnoted

theorem noted_readTag (c : Converter) : Writer.Noted True c.writer c.readTag.2.writer := by
  have hnoted := noted_search (.char '>') c
  unfold readTag
  split
  · rename_i hsearch
    rwa [hsearch] at hnoted
  · rename_i hsearch
    rw [hsearch] at hnoted
    split <;> exact hnoted

theorem noted_readReference (c : Converter) :
    Writer.Noted True c.writer c.readReference.2.writer := by
  have hnoted := noted_readUntil Reference.settled c
  unfold readReference
  split
  · rename_i hread
    rwa [hread] at hnoted
  · rename_i hread
    rw [hread] at hnoted
    split <;> exact hnoted

/-- Reading an item writes nothing; it only notes degraded lines. -/
theorem noted_readItem (c : Converter) (head : Head) :
    Writer.Noted True c.writer (c.readItem head).2.writer := by
  cases head with
  | block b rest => exact noted_skipBlock b (c.withUnread rest)
  | tag rest => exact noted_readTag (c.withUnread rest)
  | ampersand rest => exact noted_readReference c
  | blank d rest => exact .refl
  | char d rest => exact .refl

/-! ### A step -/

/-- What a step does to the open link. -/
inductive StepLinks (link : Option String) : Except ReadError Turn × Converter → Prop
  /-- A failure does nothing to it. -/
  | failed {e : ReadError} {c' : Converter} : c'.writer.link = link →
      StepLinks link (.error e, c')
  /-- There is more to do before a link may open or close. -/
  | more {c' : Converter} : c'.writer.link = link → c'.writer.Quiet → StepLinks link (.ok .more, c')
  /-- A chunk has the link, and tells the one after it. -/
  | chunk {k : Chunk} {c' : Converter} : k.link = link → k.Leaves c'.writer.link →
      StepLinks link (.ok (.chunk k), c')
  /-- The end of the input does nothing to it. -/
  | ended {c' : Converter} : c'.writer.link = link → StepLinks link (.ok .ended, c')

theorem stepLinks_stepAtEnd {c : Converter} (h : c.writer.Quiet) :
    StepLinks c.writer.link c.stepAtEnd := by
  have hnoted := noted_refill c
  unfold stepAtEnd
  split
  · split <;> rename_i hrefill <;> rw [hrefill] at hnoted
    · exact .failed hnoted.link
    · exact .more hnoted.link (hnoted.quiet h)
    · exact .ended hnoted.link
  · rename_i htext
    have htext : c.writer.layout.text ≠ "" := by simpa using htext
    exact .chunk rfl (.within (Writer.boundary?_cut h) htext)

theorem stepLinks_step {c : Converter} (h : c.writer.Quiet) : StepLinks c.writer.link c.step := by
  unfold step
  split
  · exact stepLinks_stepAtEnd h
  · rename_i head _
    have hnoted := noted_readItem c head
    split <;> rename_i hread <;> rw [hread] at hnoted
    · exact .failed hnoted.link
    · rename_i item c'
      have hpassing := Writer.passing_write c'.writer item
      generalize hwrite : c'.writer.write item = result at hpassing
      simp only [writeItem, hwrite]
      cases hpassing with
      | onward hlink hquiet =>
        exact .more (hlink.trans hnoted.link) (hquiet (hnoted.quiet h))
      | handed _ hlink _ =>
        exact .chunk (hlink.trans hnoted.link) (Writer.leaves_write hwrite)

/-! ### The next chunk -/

/-- What a call for the next chunk does to the open link. -/
inductive Links (link : Option String) : Except ReadError (Option Chunk) × Converter → Prop
  /-- A failure does nothing to it. -/
  | failed {e : ReadError} {c' : Converter} : c'.writer.link = link → Links link (.error e, c')
  /-- A chunk has the link, and tells the one after it. -/
  | chunk {k : Chunk} {c' : Converter} : k.link = link → k.Leaves c'.writer.link →
      Links link (.ok (some k), c')
  /-- The end of the input does nothing to it. -/
  | ended {c' : Converter} : c'.writer.link = link → Links link (.ok none, c')

theorem links_advance {c : Converter} (h : c.writer.Quiet) : Links c.writer.link c.advance := by
  fun_induction advance c with
  | case1 c e c' hstep =>
    have hlinks := stepLinks_step h
    rw [hstep] at hlinks
    cases hlinks with
    | failed hlink => exact .failed hlink
  | case2 c k c' hstep =>
    have hlinks := stepLinks_step h
    rw [hstep] at hlinks
    cases hlinks with
    | chunk hlink hleaves => exact .chunk hlink hleaves
  | case3 c c' hstep =>
    have hlinks := stepLinks_step h
    rw [hstep] at hlinks
    cases hlinks with
    | ended hlink => exact .ended hlink
  | case4 c c' hstep _ ih =>
    have hlinks := stepLinks_step h
    rw [hstep] at hlinks
    cases hlinks with
    | more hlink hquiet => exact hlink ▸ ih hquiet

/-- **What the next chunk does to the open link**, whatever the state of the converter. -/
theorem links_next (c : Converter) : Links c.writer.link c.next :=
  links_advance (c := c.fresh) c.writer.quiet_renew

end Converter

end BodyText
