import BodyText.Output.Writer

/-!
# Passages

A conversion hands its text out in more chunks than links make: wherever the text at hand runs out,
what was written goes out as a chunk of its own. Chunks that no link boundary parts make one
passage (`Passage.ofChunks`), and the passages are those that the writer makes when nothing is
handed out but at link boundaries (`Writer.compose`).

`Writer.Delivers` says what a conversion does with its writer, whatever it reads from. From it
follow the passages (`Delivers.passages_eq`) and the diagnostics (`Delivers.diagnostics_eq`).
-/

namespace BodyText

/-! ### Passages -/

/-- What a link does where it parts two passages. -/
inductive Boundary where
  /-- It opens. -/
  | opens
  /-- It closes. -/
  | closes
  deriving DecidableEq, Repr

/-- The boundary that ended a chunk; `none` when no link did. -/
def Chunk.boundary? (k : Chunk) : Option Boundary :=
  if k.opensLink then some .opens else if k.closesLink then some .closes else none

/-- The text between two link boundaries. -/
structure Passage where
  /-- The text. -/
  text : String
  /-- The target of the link that was open for it. -/
  link : Option String
  /-- The boundary that ended it; none at the end of the input. -/
  boundary : Option Boundary
  deriving DecidableEq, Repr

namespace Passage

/-- Passages with more text before them, which belongs to the first one. -/
def prepend (text : String) (link : Option String) : List Passage → List Passage
  | [] => if text.isEmpty then [] else [⟨text, link, none⟩]
  | p :: ps => ⟨text ++ p.text, p.link, p.boundary⟩ :: ps

/-- The passages that some chunks make. -/
def ofChunks : List Chunk → List Passage
  | [] => []
  | k :: ks =>
    match k.boundary? with
    | some boundary => ⟨k.text, k.link, some boundary⟩ :: ofChunks ks
    | none => prepend k.text k.link (ofChunks ks)

@[simp] theorem prepend_empty (link : Option String) (ps : List Passage) :
    prepend "" link ps = ps := by
  cases ps with
  | nil => rfl
  | cons p ps => simp [prepend]

theorem prepend_append (text more : String) (link : Option String) (ps : List Passage) :
    prepend (text ++ more) link ps = prepend text link (prepend more link ps) := by
  cases ps with
  | nil =>
    by_cases h : more = ""
    · subst h
      simp [prepend]
    · simp [prepend, h]
  | cons p ps => simp [prepend, String.append_assoc]

/-- The text of passages, one after the other. -/
def joined (ps : List Passage) : String := String.join (ps.map Passage.text)

theorem joined_prepend (text : String) (link : Option String) (ps : List Passage) :
    joined (prepend text link ps) = text ++ joined ps := by
  cases ps with
  | nil =>
    by_cases h : text = ""
    · simp [prepend, joined, h]
    · simp [prepend, joined, h]
  | cons p ps => simp [prepend, joined, String.append_assoc]

/-- Passages have the text of their chunks. -/
theorem joined_ofChunks (ks : List Chunk) :
    joined (ofChunks ks) = String.join (ks.map Chunk.text) := by
  induction ks with
  | nil => rfl
  | cons k ks ih =>
    rw [ofChunks, List.map_cons, String.join_cons, ← ih]
    cases k.boundary? with
    | none => exact joined_prepend k.text k.link (ofChunks ks)
    | some boundary => exact String.join_cons

end Passage

/-! ### Characters with their links -/

/-- The characters of a text, each with the link that is open for it. -/
def withLink (text : String) (link : Option String) : List (Char × Option String) :=
  text.toList.map fun c => (c, link)

/-- The characters of a chunk. -/
def Chunk.characters (k : Chunk) : List (Char × Option String) := withLink k.text k.link

/-- The characters of a passage. -/
def Passage.characters (p : Passage) : List (Char × Option String) := withLink p.text p.link

theorem withLink_append (text more : String) (link : Option String) :
    withLink (text ++ more) link = withLink text link ++ withLink more link := by
  rw [withLink, String.toList_append, List.map_append]
  rfl

theorem Passage.characters_prepend {text : String} {link : Option String} {ps : List Passage}
    (h : ∀ p ∈ ps.head?, p.link = link) :
    (prepend text link ps).flatMap Passage.characters =
      withLink text link ++ ps.flatMap Passage.characters := by
  cases ps with
  | nil =>
    by_cases htext : text = ""
    · subst htext
      rfl
    · simp [prepend, htext, Passage.characters]
  | cons p ps =>
    have hlink : p.link = link := h p rfl
    rw [prepend, List.flatMap_cons, List.flatMap_cons, characters, characters, withLink_append,
      hlink, List.append_assoc]

/-! ### Layouts with more text before -/

namespace Layout

/-- The layout with some text before its text. -/
def behind (t : String) (l : Layout) : Layout := { l with text := t ++ l.text }

variable (t : String) (l : Layout)

@[simp] theorem emit_behind (c : Char) : (l.behind t).emit c = (l.emit c).behind t := by
  have htext : (t ++ l.text).push c = t ++ l.text.push c := by
    rw [String.push_eq_append, String.push_eq_append, String.append_assoc]
  by_cases hc : c = '\n'
  · rw [emit, emit, if_pos hc, if_pos hc]
    simp only [behind, htext]
  · rw [emit, emit, if_neg hc, if_neg hc]
    simp only [behind, htext]

@[simp] theorem flush_behind : (l.behind t).flush = l.flush.behind t := by
  simp only [flush]
  split
  · rename_i h
    rw [if_pos (by exact h)]
    exact emit_behind t { l with spacePending := false } ' '
  · rename_i h
    rw [if_neg (by exact h)]

@[simp] theorem push_behind (c : Char) : (l.behind t).push c = (l.push c).behind t := by
  rw [push, push, flush_behind, emit_behind]

theorem foldl_emit_behind (cs : List Char) :
    cs.foldl emit (l.behind t) = (cs.foldl emit l).behind t := by
  induction cs generalizing l with
  | nil => rfl
  | cons c cs ih => rw [List.foldl_cons, List.foldl_cons, emit_behind, ih]

@[simp] theorem append_behind (s : String) : (l.behind t).append s = (l.append s).behind t := by
  rw [append, append, flush_behind, foldl_emit_behind]

@[simp] theorem blank_behind : (l.behind t).blank = l.blank.behind t := by
  unfold blank
  split
  · rename_i h
    rw [if_pos (by exact h)]
    rfl
  · rename_i h
    rw [if_neg (by exact h)]

@[simp] theorem dropSpace_behind : (l.behind t).dropSpace = l.dropSpace.behind t := rfl

@[simp] theorem startLine_behind : (l.behind t).startLine = l.startLine.behind t := by
  rw [startLine, startLine, dropSpace_behind, emit_behind]
  split
  · rename_i h
    rw [if_pos (by exact h)]
  · rename_i h
    rw [if_neg (by exact h)]

@[simp] theorem leaveBlankLine_behind :
    (l.behind t).leaveBlankLine = l.leaveBlankLine.behind t := by
  rw [leaveBlankLine, leaveBlankLine, dropSpace_behind, startLine_behind, emit_behind]
  split
  · rename_i h
    rw [if_pos (by exact h)]
  · rename_i h
    rw [if_neg (by exact h)]

@[simp] theorem setPreformatted_behind (on : Bool) :
    (l.behind t).setPreformatted on = (l.setPreformatted on).behind t := rfl

end Layout

/-! ### Writers with more text before -/

namespace Writer

/-- A writer `v` that has not yet handed out the text `t`, which a writer `w` has; all that decides
about the text to come is the same. -/
structure Ahead (t : String) (v w : Writer) : Prop where
  /-- The text that was not handed out is before the text of `w`. -/
  layout : v.layout = w.layout.behind t
  /-- The same link is open. -/
  link : v.link = w.link
  /-- Rules look the same. -/
  rule : v.rule = w.rule
  /-- The bodies have the same charset, as far as references go. -/
  latin1 : v.latin1 = w.latin1

theorem Ahead.of_same {v w : Writer} (hlayout : v.layout = w.layout) (hlink : v.link = w.link)
    (hrule : v.rule = w.rule) (hlatin1 : v.latin1 = w.latin1) : Ahead "" v w :=
  ⟨by simp [hlayout, Layout.behind], hlink, hrule, hlatin1⟩

variable {t : String} {v w : Writer}

theorem Ahead.report (h : Ahead t v w) (d d' : Diagnostic) : Ahead t (v.report d) (w.report d') := by
  unfold Writer.report
  split
  · split <;> exact ⟨h.layout, h.link, h.rule, h.latin1⟩
  · split <;> exact ⟨h.layout, h.link, h.rule, h.latin1⟩

theorem Ahead.noteMarkup (h : Ahead t v w) : Ahead t v.noteMarkup w.noteMarkup :=
  ⟨h.layout, h.link, h.rule, h.latin1⟩

theorem Ahead.edit (h : Ahead t v w) (transition : Transition) {f : Layout → Layout}
    (hf : ∀ l : Layout, f (l.behind t) = (f l).behind t) :
    Ahead t (v.edit transition f) (w.edit transition f) :=
  ⟨by rw [Writer.edit, Writer.edit, h.layout, hf], h.link, h.rule, h.latin1⟩

/-- What two writers come to with the same thing to write: both go on, or both hand out a chunk. -/
inductive Together (t : String) : Option Chunk × Writer → Option Chunk × Writer → Prop
  /-- Both go on. -/
  | onward {v w : Writer} : Ahead t v w → Together t (none, v) (none, w)
  /-- Both hand out their text, which is then all handed out. -/
  | handed {v w : Writer} {text : String} {link : Option String} {transition : Transition} :
    Ahead "" v w → Together t (some ⟨t ++ text, link, transition⟩, v)
      (some ⟨text, link, transition⟩, w)

theorem Ahead.handed (h : Ahead t v w) (link : Option String) (transition : Transition) :
    Together t
      (some ({ v with transition := transition, link := link }.cut v.link).1,
        ({ v with transition := transition, link := link }.cut v.link).2)
      (some ({ w with transition := transition, link := link }.cut w.link).1,
        ({ w with transition := transition, link := link }.cut w.link).2) := by
  simp only [cut, h.layout, h.link]
  exact .handed (.of_same rfl rfl h.rule h.latin1)

theorem Ahead.perform (h : Ahead t v w) (tag : Tag) (action : Action) :
    Together t (v.perform tag action) (w.perform tag action) := by
  cases action with
  | breakLine => exact .onward (h.edit _ fun l => by simp)
  | openLink =>
    unfold Writer.perform
    cases tag.value? "href" with
    | none => exact .onward h
    | some target => exact h.handed (some target) .linkOpened
  | closeLink => exact h.handed none .linkClosed
  | startParagraph => exact .onward (h.edit _ fun l => by simp)
  | openPreformatted => exact .onward (h.edit _ fun l => by simp)
  | closePreformatted => exact .onward (h.edit _ fun l => by simp)
  | drawRule =>
    rw [Writer.perform, Writer.perform, h.rule]
    exact .onward (h.edit _ fun l => by simp)
  | startLine => exact .onward (h.edit _ fun l => by simp)
  | leaveBlankLine => exact .onward (h.edit _ fun l => by simp)

theorem Ahead.writeTag (h : Ahead t v w) (tag : Tag) :
    Together t (v.writeTag tag) (w.writeTag tag) := by
  unfold Writer.writeTag
  cases Action.ofName? tag.name with
  | none => exact .onward h
  | some action => exact h.perform tag action

theorem Ahead.writeBlank (h : Ahead t v w) (c : Char) :
    Ahead t (v.writeBlank c) (w.writeBlank c) := by
  refine ⟨?_, h.link, h.rule, h.latin1⟩
  rw [Writer.writeBlank, Writer.writeBlank, h.layout]
  simp only [Layout.push_behind, Layout.blank_behind]
  split
  · rename_i hpre
    rw [if_pos (by exact hpre)]
  · rename_i hpre
    rw [if_neg (by exact hpre)]

theorem Ahead.writeReference (h : Ahead t v w) (token : List Char) :
    Ahead t (v.writeReference token) (w.writeReference token) := by
  have hresolve : Reference.resolve? v.latin1 token = Reference.resolve? w.latin1 token := by
    rw [h.latin1]
  rw [Writer.writeReference, Writer.writeReference, hresolve]
  have happend : ∀ s : String, Ahead t { v with layout := v.layout.append s }
      { w with layout := w.layout.append s } := fun s =>
    ⟨by simp only [h.layout, Layout.append_behind], h.link, h.rule, h.latin1⟩
  cases Reference.resolve? w.latin1 token with
  | none => exact (happend (String.ofList token)).report _ _
  | some text => exact happend text

/-- Writing an item keeps a writer ahead of another one. -/
theorem Ahead.write (h : Ahead t v w) (item : Item) : Together t (v.write item) (w.write item) := by
  cases item with
  | char c => exact .onward ⟨by simp only [h.layout, Layout.push_behind], h.link, h.rule, h.latin1⟩
  | blank c => exact .onward (h.writeBlank c)
  | reference token => exact .onward (h.writeReference token)
  | skipped => exact .onward h.noteMarkup
  | tag text =>
    rw [Writer.write, Writer.write]
    cases Tag.read text with
    | nothing => exact .onward h.noteMarkup
    | complete tag => exact h.noteMarkup.writeTag tag
    | unclosed tag => exact (h.noteMarkup.report _ _).writeTag tag
  | unclosed text => exact .onward (h.noteMarkup.report _ _)

/-! ### One text between two boundaries -/

/-- The passages of some items when nothing is handed out but at link boundaries. -/
def compose (w : Writer) : List Item → List Passage
  | [] => Passage.prepend w.layout.text w.link []
  | item :: items =>
    match w.write item with
    | (some k, w') => ⟨k.text, k.link, k.boundary?⟩ :: compose w' items
    | (none, w') => compose w' items

theorem compose_of_none {w w' : Writer} {item : Item} (h : w.write item = (none, w'))
    (items : List Item) : w.compose (item :: items) = w'.compose items := by
  rw [compose, h]

theorem compose_of_some {w w' : Writer} {item : Item} {k : Chunk}
    (h : w.write item = (some k, w')) (items : List Item) :
    w.compose (item :: items) = ⟨k.text, k.link, k.boundary?⟩ :: w'.compose items := by
  rw [compose, h]

/-- No link has just opened or closed. -/
def Quiet (w : Writer) : Prop := w.transition ≠ .linkOpened ∧ w.transition ≠ .linkClosed

/-- What a writer comes to by one more item: it goes on with the same link, or hands its text out at
a link boundary. -/
inductive Passing (w : Writer) : Option Chunk × Writer → Prop
  /-- The writer goes on. -/
  | onward {w' : Writer} : w'.link = w.link → (w.Quiet → w'.Quiet) → Passing w (none, w')
  /-- The writer hands out what was written. -/
  | handed {w' : Writer} {k : Chunk} {boundary : Boundary} : k.boundary? = some boundary →
      k.link = w.link → w'.layout.text = "" → Passing w (some k, w')

@[simp] theorem link_report (w : Writer) (d : Diagnostic) : (w.report d).link = w.link := by
  unfold report
  split <;> rfl

@[simp] theorem layout_report (w : Writer) (d : Diagnostic) : (w.report d).layout = w.layout := by
  unfold report
  split <;> rfl

@[simp] theorem transition_report (w : Writer) (d : Diagnostic) :
    (w.report d).transition = w.transition := by
  unfold report
  split <;> rfl

theorem quiet_noteMarkup (w : Writer) : w.noteMarkup.Quiet := ⟨nofun, nofun⟩

theorem Quiet.report {w : Writer} (h : w.Quiet) (d : Diagnostic) : (w.report d).Quiet := by
  unfold Quiet
  rw [transition_report]
  exact h

theorem passing_perform (w : Writer) (tag : Tag) (action : Action) :
    Passing w (w.perform tag action) := by
  cases action with
  | openLink =>
    unfold perform
    cases tag.value? "href" with
    | none => exact .onward rfl id
    | some target => exact .handed (show _ = some Boundary.opens from rfl) rfl rfl
  | closeLink => exact .handed (show _ = some Boundary.closes from rfl) rfl rfl
  | breakLine => exact .onward rfl fun _ => ⟨nofun, nofun⟩
  | startParagraph => exact .onward rfl fun _ => ⟨nofun, nofun⟩
  | openPreformatted => exact .onward rfl fun _ => ⟨nofun, nofun⟩
  | closePreformatted => exact .onward rfl fun _ => ⟨nofun, nofun⟩
  | drawRule => exact .onward rfl fun _ => ⟨nofun, nofun⟩
  | startLine => exact .onward rfl fun _ => ⟨nofun, nofun⟩
  | leaveBlankLine => exact .onward rfl fun _ => ⟨nofun, nofun⟩

theorem Passing.of_link {w v : Writer} {result : Option Chunk × Writer} (h : Passing v result)
    (hlink : v.link = w.link) (hquiet : v.Quiet) : Passing w result := by
  cases h with
  | onward hw hq => exact .onward (hw.trans hlink) fun _ => hq hquiet
  | handed hb hk htext => exact .handed hb (hk.trans hlink) htext

theorem passing_writeTag {w v : Writer} (hlink : v.link = w.link) (hquiet : v.Quiet) (tag : Tag) :
    Passing w (v.writeTag tag) := by
  unfold writeTag
  cases Action.ofName? tag.name with
  | none => exact .onward hlink fun _ => hquiet
  | some action => exact (passing_perform v tag action).of_link hlink hquiet

/-- Every item is passed in one of the two ways. -/
theorem passing_write (w : Writer) (item : Item) : Passing w (w.write item) := by
  cases item with
  | char c => exact .onward rfl id
  | blank c => exact .onward rfl id
  | reference token =>
    rw [write, writeReference]
    cases Reference.resolve? w.latin1 token with
    | none =>
      refine .onward (link_report _ _) ?_
      intro h
      exact Quiet.report (w := { w with layout := w.layout.append (String.ofList token) }) h _
    | some text => exact .onward rfl id
  | skipped => exact .onward rfl fun _ => w.quiet_noteMarkup
  | tag text =>
    rw [write]
    cases Tag.read text with
    | nothing => exact .onward rfl fun _ => w.quiet_noteMarkup
    | complete tag => exact passing_writeTag (w := w) (v := w.noteMarkup) rfl w.quiet_noteMarkup tag
    | unclosed tag =>
      exact passing_writeTag (w := w) (v := w.noteMarkup.report (.ofTag text))
        (link_report w.noteMarkup _) (w.quiet_noteMarkup.report _) tag
  | unclosed text => exact .onward (link_report _ _) fun _ => w.quiet_noteMarkup.report _

/-- Text that was not handed out comes before the passages, in the first of them. -/
theorem compose_of_ahead {t : String} {v w : Writer} (h : Ahead t v w) (items : List Item) :
    v.compose items = Passage.prepend t w.link (w.compose items) := by
  induction items generalizing t v w with
  | nil =>
    rw [compose, compose, h.layout, h.link]
    exact Passage.prepend_append t w.layout.text w.link []
  | cons item items ih =>
    have htogether := h.write item
    have hpassing := passing_write w item
    generalize hv : v.write item = rv at htogether
    generalize hw : w.write item = rw_ at htogether hpassing
    cases htogether with
    | onward hahead =>
      cases hpassing with
      | onward hlink _ =>
        rw [compose_of_none hv, compose_of_none hw, ih hahead, hlink]
    | handed hahead =>
      rw [compose_of_some hv, compose_of_some hw, ih hahead, Passage.prepend_empty]
      rfl

/-! ### What a conversion does with its writer -/

/-- The writer with nothing notable having happened and nothing written. -/
def renew (w : Writer) : Writer := w.edit .normal Layout.clear

/-- From a writer, some items come to the given chunks and leave another writer. Text is handed out
at link boundaries and wherever else there is some; lines may be degraded only if `p`. -/
inductive Delivers (p : Prop) : Writer → List Item → List Chunk → Writer → Prop
  /-- The input ended, and all text was handed out. -/
  | ended {w : Writer} : w.layout.text = "" → Delivers p w [] [] { w with transition := .ended }
  /-- An item was written. -/
  | written {w w' v : Writer} {item : Item} {items : List Item} {ks : List Chunk} :
      w.write item = (none, w') → Delivers p w' items ks v → Delivers p w (item :: items) ks v
  /-- An item was written that ended a chunk. -/
  | linked {w w' v : Writer} {item : Item} {items : List Item} {k : Chunk} {ks : List Chunk} :
      w.write item = (some k, w') → Delivers p w'.renew items ks v →
      Delivers p w (item :: items) (k :: ks) v
  /-- What was written was handed out between two items. -/
  | cut {w v : Writer} {items : List Item} {ks : List Chunk} : w.layout.text ≠ "" →
      Delivers p (w.cut w.link).2.renew items ks v →
      Delivers p w items ((w.cut w.link).1 :: ks) v
  /-- A line was noted to be degraded. -/
  | noted {w v : Writer} {items : List Item} {ks : List Chunk} (line : Nat) : p →
      Delivers p (w.noteDegraded line) items ks v → Delivers p w items ks v

theorem quiet_renew (w : Writer) : w.renew.Quiet := by
  constructor <;> simp [renew, edit]

theorem quiet_noteDegraded (w : Writer) (line : Nat) : (w.noteDegraded line).Quiet := by
  constructor <;> simp [noteDegraded]

theorem ahead_renew {w : Writer} : Ahead w.layout.text w w.renew :=
  ⟨by simp [renew, edit, Layout.clear, Layout.behind], rfl, rfl, rfl⟩

theorem compose_renew {w : Writer} (h : w.layout.text = "") (items : List Item) :
    w.renew.compose items = w.compose items := by
  rw [compose_of_ahead (w := w.renew) (v := w) ahead_renew, h, Passage.prepend_empty]

theorem ahead_noteDegraded (w : Writer) (line : Nat) : Ahead "" w (w.noteDegraded line) := by
  rw [noteDegraded, report]
  split
  · exact .of_same rfl rfl rfl rfl
  · exact .of_same rfl rfl rfl rfl

/-- A chunk that is handed out between two items has no link boundary. -/
theorem boundary?_cut {w : Writer} (h : w.Quiet) : (w.cut w.link).1.boundary? = none := by
  simp [cut, Chunk.boundary?, Chunk.opensLink, Chunk.closesLink, h.1, h.2]

/-- **The passages of a conversion** are those of its items, wherever else text was handed out. -/
theorem Delivers.passages_eq {p : Prop} {w v : Writer} {items : List Item} {ks : List Chunk}
    (h : Delivers p w items ks v) (hquiet : w.Quiet) : Passage.ofChunks ks = w.compose items := by
  induction h with
  | ended htext =>
    rw [compose, htext, Passage.prepend_empty, Passage.ofChunks]
  | @written w w' v item items ks hwrite _ ih =>
    have hpassing := passing_write w item
    rw [hwrite] at hpassing
    cases hpassing with
    | onward _ hq => rw [compose_of_none hwrite, ih (hq hquiet)]
  | @linked w w' v item items k ks hwrite _ ih =>
    have hpassing := passing_write w item
    rw [hwrite] at hpassing
    cases hpassing with
    | handed hboundary _ htext =>
      rw [compose_of_some hwrite, Passage.ofChunks, hboundary, ih w'.quiet_renew,
        compose_renew htext]
  | @cut w v items ks htext _ ih =>
    have hahead : Ahead w.layout.text w (w.cut w.link).2.renew := ahead_renew
    rw [Passage.ofChunks, boundary?_cut hquiet, ih (quiet_renew _), compose_of_ahead hahead]
    rfl
  | @noted w v items ks line _ _ ih =>
    rw [ih (w.quiet_noteDegraded line), compose_of_ahead (w.ahead_noteDegraded line),
      Passage.prepend_empty]

/-- The link of the first passage is the one that is open already. -/
theorem link_of_compose (w : Writer) (items : List Item) :
    ∀ p ∈ (w.compose items).head?, p.link = w.link := by
  induction items generalizing w with
  | nil =>
    intro p hp
    rw [compose, Passage.prepend] at hp
    split at hp
    · cases hp
    · cases hp
      rfl
  | cons item items ih =>
    have hpassing := passing_write w item
    generalize hwrite : w.write item = result at hpassing
    cases hpassing with
    | onward hlink _ =>
      rw [compose_of_none hwrite, ← hlink]
      exact ih _
    | handed _ hlink _ =>
      rw [compose_of_some hwrite]
      intro p hp
      cases hp
      exact hlink

/-- **The characters of a conversion**, with their links, are those of its items. -/
theorem Delivers.characters_eq {p : Prop} {w v : Writer} {items : List Item} {ks : List Chunk}
    (h : Delivers p w items ks v) :
    ks.flatMap Chunk.characters = (w.compose items).flatMap Passage.characters := by
  induction h with
  | ended htext =>
    rw [compose, htext, Passage.prepend_empty]
    rfl
  | written hwrite _ ih => rw [compose_of_none hwrite, ih]
  | @linked w w' v item items k ks hwrite _ ih =>
    have hpassing := passing_write w item
    rw [hwrite] at hpassing
    cases hpassing with
    | handed _ _ htext =>
      rw [compose_of_some hwrite, List.flatMap_cons, List.flatMap_cons, ih, compose_renew htext]
      rfl
  | @cut w v items ks htext _ ih =>
    have hahead : Ahead w.layout.text w (w.cut w.link).2.renew := ahead_renew
    rw [compose_of_ahead hahead, Passage.characters_prepend (link_of_compose _ _),
      List.flatMap_cons, ih]
    rfl
  | @noted w v items ks line _ _ ih =>
    rw [ih, compose_of_ahead (w.ahead_noteDegraded line), Passage.prepend_empty]

/-! ### Diagnostics -/

/-- Diagnostics with one more, while there is room. -/
def keep (kept : List Diagnostic) (d : Diagnostic) : List Diagnostic :=
  if kept.length < maxDiagnostics then kept ++ [d] else kept

@[simp] theorem diagnostics_report (w : Writer) (d : Diagnostic) :
    (w.report d).diagnostics = keep w.diagnostics d := by
  rw [report, keep]
  split <;> rfl

end Writer

/-- The diagnostic of an item; `none` when there is nothing wrong with it. -/
def Item.diagnostic? (latin1 : Bool) : Item → Option Diagnostic
  | .reference token =>
    if (Reference.resolve? latin1 token).isSome then none
    else some (.unresolvedReference (String.ofList token))
  | .tag text =>
    match Tag.read text with
    | .unclosed _ => some (.ofTag text)
    | .nothing | .complete _ => none
  | .unclosed text => some (.ofTag text)
  | .char _ | .blank _ | .skipped => none

namespace Writer

theorem diagnostics_perform (w : Writer) (tag : Tag) (action : Action) :
    (w.perform tag action).2.diagnostics = w.diagnostics ∧
      (w.perform tag action).2.latin1 = w.latin1 := by
  cases action with
  | openLink =>
    unfold perform
    cases tag.value? "href" with
    | none => exact ⟨rfl, rfl⟩
    | some target => exact ⟨rfl, rfl⟩
  | _ => exact ⟨rfl, rfl⟩

theorem diagnostics_writeTag (w : Writer) (tag : Tag) :
    (w.writeTag tag).2.diagnostics = w.diagnostics ∧ (w.writeTag tag).2.latin1 = w.latin1 := by
  unfold writeTag
  cases Action.ofName? tag.name with
  | none => exact ⟨rfl, rfl⟩
  | some action => exact w.diagnostics_perform tag action

@[simp] theorem latin1_report (w : Writer) (d : Diagnostic) : (w.report d).latin1 = w.latin1 := by
  unfold report
  split <;> rfl

/-- An item adds its own diagnostic and no other. -/
theorem diagnostics_write (w : Writer) (item : Item) :
    (w.write item).2.diagnostics = (item.diagnostic? w.latin1).toList.foldl keep w.diagnostics ∧
      (w.write item).2.latin1 = w.latin1 := by
  cases item with
  | char c => exact ⟨rfl, rfl⟩
  | blank c => exact ⟨rfl, rfl⟩
  | reference token =>
    rw [write, writeReference, Item.diagnostic?]
    cases Reference.resolve? w.latin1 token with
    | none => exact ⟨diagnostics_report _ _, latin1_report _ _⟩
    | some text => exact ⟨rfl, rfl⟩
  | skipped => exact ⟨rfl, rfl⟩
  | tag text =>
    rw [write, Item.diagnostic?]
    cases Tag.read text with
    | nothing => exact ⟨rfl, rfl⟩
    | complete tag => exact w.noteMarkup.diagnostics_writeTag tag
    | unclosed tag =>
      obtain ⟨hdiag, hlatin1⟩ := (w.noteMarkup.report (.ofTag text)).diagnostics_writeTag tag
      exact ⟨hdiag.trans (diagnostics_report _ _), hlatin1.trans (latin1_report _ _)⟩
  | unclosed text => exact ⟨diagnostics_report _ _, latin1_report _ _⟩

/-- The diagnostics of some items, kept behind those of the writer. -/
def kept (w : Writer) (items : List Item) : List Diagnostic :=
  (items.filterMap (Item.diagnostic? w.latin1)).foldl keep w.diagnostics

theorem kept_write (w : Writer) (item : Item) (items : List Item) :
    (w.write item).2.kept items = w.kept (item :: items) := by
  obtain ⟨hdiag, hlatin1⟩ := w.diagnostics_write item
  rw [kept, kept, hdiag, hlatin1, List.filterMap_cons]
  cases item.diagnostic? w.latin1 <;> rfl

/-- **The diagnostics of a conversion** that degrades no line are the first ones of its items. -/
theorem Delivers.diagnostics_eq {p : Prop} {w v : Writer} {items : List Item} {ks : List Chunk}
    (h : Delivers p w items ks v) (hp : ¬ p) : v.diagnostics = w.kept items := by
  induction h with
  | ended htext => rfl
  | @written w w' v item items ks hwrite _ ih => rw [← kept_write, hwrite, ih]
  | @linked w w' v item items k ks hwrite _ ih =>
    rw [← kept_write, hwrite, ih]
    rfl
  | cut _ _ ih => exact ih
  | noted _ hnoted _ _ => exact absurd hnoted hp

end Writer

end BodyText
