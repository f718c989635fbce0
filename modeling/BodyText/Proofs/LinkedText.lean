import BodyText.Proofs.Escaping
import BodyText.Proofs.ValidText

/-!
# Text with links

A text is given in segments, each of them in one link or in none. Written in a body, escaped and
with tags around what is in a link, it is given back by the conversion, every character with its
link (`Converter.characters_run_render`). Only the blanks are not kept: the words of the text stand
one space apart, however many blanks there were and whatever link they were in, and the space
belongs to the word behind it (`collapsed`).
-/

namespace BodyText

/-! ### Words -/

section

variable {α : Type}

/-- The words of a text: what stands between its blanks. -/
def words (text : List (Char × α)) : List (List (Char × α)) :=
  (text.splitOnP fun x => isBodyBlank x.1).filter (!·.isEmpty)

/-- A word with a space before it, which belongs to its first character. -/
def spaced : List (Char × α) → List (Char × α)
  | [] => []
  | x :: word => (' ', x.2) :: x :: word

/-- The words of a text, each with a space before it. -/
def spacedWords (text : List (Char × α)) : List (Char × α) := (words text).flatMap spaced

/-- A text with every run of blanks collapsed: its words one space apart, and no blank at either
end. -/
def collapsed (text : List (Char × α)) : List (Char × α) := (spacedWords text).drop 1

/-- The text collapsed, as it stands behind some other character. -/
def continued (text : List (Char × α)) : List (Char × α) :=
  if text.head?.all fun x => isBodyBlank x.1 then spacedWords text else collapsed text

/-- A blank belongs to no word. -/
theorem spacedWords_of_blank {x : Char × α} (hx : isBodyBlank x.1 = true)
    (text : List (Char × α)) : spacedWords (x :: text) = spacedWords text := by
  rw [spacedWords, words, List.splitOnP_cons_eq_if_modifyHead, if_pos hx]
  rfl

/-- What stands before the first blank goes on with the character behind which the text stands. -/
theorem continued_of_splitOnP {text word : List (Char × α)} {later : List (List (Char × α))}
    (h : text.splitOnP (fun x => isBodyBlank x.1) = word :: later) :
    continued text = word ++ (later.filter (!·.isEmpty)).flatMap spaced := by
  cases text with
  | nil =>
    obtain ⟨rfl, rfl⟩ := List.cons.inj h
    rfl
  | cons x text =>
    rw [List.splitOnP_cons_eq_if_modifyHead] at h
    by_cases hx : isBodyBlank x.1 = true
    · rw [if_pos hx] at h
      obtain ⟨rfl, rfl⟩ := List.cons.inj h
      rw [continued, if_pos (by exact hx), spacedWords_of_blank hx]
      rfl
    · rw [if_neg hx] at h
      rw [continued, if_neg (by exact hx), collapsed, spacedWords, words,
        List.splitOnP_cons_eq_if_modifyHead, if_neg hx, h]
      obtain ⟨begin, more, hsplit⟩ :=
        List.exists_cons_of_ne_nil (List.splitOnP_ne_nil (fun y => isBodyBlank y.1) text)
      rw [hsplit, List.modifyHead_cons] at h
      obtain ⟨rfl, -⟩ := List.cons.inj h
      rfl

/-- Any other character starts a word or goes on with it. -/
theorem spacedWords_of_not_blank {x : Char × α} (hx : isBodyBlank x.1 = false)
    (text : List (Char × α)) :
    spacedWords (x :: text) = (' ', x.2) :: x :: continued text := by
  obtain ⟨word, later, hsplit⟩ :=
    List.exists_cons_of_ne_nil (List.splitOnP_ne_nil (fun y => isBodyBlank y.1) text)
  rw [continued_of_splitOnP hsplit, spacedWords, words, List.splitOnP_cons_eq_if_modifyHead,
    if_neg (by simp [hx]), hsplit]
  rfl

/-! ### Spaces that are pending -/

/-- What is written of a text, where `started` tells whether anything was written before, and
`pending` whether a space goes out before the next character. -/
def respaced (started pending : Bool) : List (Char × α) → List (Char × α)
  | [] => []
  | x :: text =>
    if isBodyBlank x.1 then respaced started (pending || started) text
    else if pending then (' ', x.2) :: x :: respaced true false text
    else x :: respaced true false text

theorem respaced_started (text : List (Char × α)) :
    respaced true true text = spacedWords text ∧ respaced true false text = continued text := by
  induction text with
  | nil => exact ⟨rfl, rfl⟩
  | cons x text ih =>
    by_cases hx : isBodyBlank x.1 = true
    · have hwords := spacedWords_of_blank hx text
      constructor
      · rw [respaced, if_pos hx, hwords]
        exact ih.1
      · rw [respaced, if_pos hx, continued, if_pos (by exact hx), hwords]
        exact ih.1
    · have hwords := spacedWords_of_not_blank (by simpa using hx) text
      constructor
      · rw [respaced, if_neg hx, if_pos rfl, hwords, ih.2]
      · rw [respaced, if_neg hx, if_neg nofun, continued, if_neg (by exact hx), collapsed, hwords,
          ih.2]
        rfl

/-- **Pending spaces collapse blanks.** -/
theorem respaced_eq_collapsed (text : List (Char × α)) :
    respaced false false text = collapsed text := by
  induction text with
  | nil => rfl
  | cons x text ih =>
    by_cases hx : isBodyBlank x.1 = true
    · rw [respaced, if_pos hx, collapsed, spacedWords_of_blank hx]
      exact ih
    · rw [respaced, if_neg hx, if_neg nofun, collapsed,
        spacedWords_of_not_blank (by simpa using hx), (respaced_started text).2]
      rfl

end

/-! ### Writing text in links -/

theorem withLink_push (text : String) (c : Char) (link : Option String) :
    withLink (text.push c) link = withLink text link ++ [(c, link)] := by
  rw [withLink, String.toList_push, List.map_append]
  rfl

namespace Layout

variable {l : Layout}

/-- What a layout makes of a text that is to be written. -/
def respaced (l : Layout) (text : List (Char × Option String)) : List (Char × Option String) :=
  BodyText.respaced (!l.atLineStart) l.spacePending text

/-- A character is written behind the space that is pending. -/
theorem push_eq (h : l.preformatted = false) {c : Char} (hc : c ≠ '\n') :
    l.push c =
      { l with
        text := (if l.spacePending then l.text.push ' ' else l.text).push c
        atLineStart := false
        afterBlankLine := false
        spacePending := false } := by
  obtain ⟨text, atLineStart, afterBlankLine, spacePending, preformatted⟩ := l
  cases h
  cases spacePending with
  | false => simp [push, flush, emit, hc]
  | true => simp [push, flush, emit, hc]

end Layout

namespace Writer

variable {w : Writer}

/-- Writing a character of a text comes to what is made of it. -/
theorem respaced_write_plain (hw : w.layout.preformatted = false) (c : Char)
    (text : List (Char × Option String)) :
    withLink (w.write (.plain c)).2.layout.text w.link ++
        (w.write (.plain c)).2.layout.respaced text =
      withLink w.layout.text w.link ++ w.layout.respaced ((c, w.link) :: text) := by
  rw [Layout.respaced, Layout.respaced, respaced]
  by_cases hc : isBodyBlank c = true
  · rw [Item.plain, if_pos hc, if_pos hc, write_blank hw, Layout.blank, hw]
    cases hline : w.layout.atLineStart with
    | false => simp
    | true => simp [hline]
  · have hnewline : c ≠ '\n' := by
      rintro rfl
      exact hc rfl
    rw [Item.plain, if_neg hc, if_neg hc, write, Layout.push_eq hw hnewline]
    cases hspace : w.layout.spacePending with
    | false => simp [withLink_push]
    | true => simp [withLink_push]

theorem link_write_plain (w : Writer) (c : Char) : (w.write (.plain c)).2.link = w.link := by
  unfold Item.plain
  split <;> rfl

theorem link_writePlain (w : Writer) (text : List Char) : (w.writePlain text).link = w.link := by
  induction text generalizing w with
  | nil => rfl
  | cons c text ih => exact (ih _).trans (w.link_write_plain c)

/-- Writing a text comes to what is made of it, all in the link that is open. -/
theorem respaced_writePlain (hw : w.layout.preformatted = false) (text : List Char)
    (rest : List (Char × Option String)) :
    withLink (w.writePlain text).layout.text w.link ++ (w.writePlain text).layout.respaced rest =
      withLink w.layout.text w.link ++
        w.layout.respaced (text.map (fun c => (c, w.link)) ++ rest) := by
  induction text generalizing w with
  | nil => rfl
  | cons c text ih =>
    have hlater := ih (preformatted_write_plain hw c)
    rw [link_write_plain] at hlater
    rw [List.map_cons, List.cons_append, ← respaced_write_plain hw, ← hlater]
    rfl

end Writer

/-! ### Links -/

/-- The text of the tag `<a href="...">` that opens a link. -/
def linkTag (target : List Char) : List Char :=
  ['a', ' ', 'h', 'r', 'e', 'f', '=', '"'] ++ (target ++ ['"'])

/-- The text of the tag `</a>` that closes a link. -/
def linkEnd : List Char := ['/', 'a']

/-- A target in quotes is read as it was written. -/
theorem Tag.read_linkTag {target : List Char} (h : '"' ∉ target) :
    read (linkTag target) = .complete ⟨"a", [⟨"href", String.ofList target⟩]⟩ := by
  have htrim : trimBy isBlank (linkTag target) =
      'a' :: ([' ', 'h', 'r', 'e', 'f', '=', '"'] ++ target ++ ['"']) := by
    rw [linkTag, List.cons_append, ← List.append_assoc]
    exact trimBy_eq_self rfl rfl
  have hvalue : readAssigned? ('=' :: '"' :: (target ++ ['"'])) = some (target, []) :=
    splitAt?_of_not_mem h []
  have hname : attribute? ['h', 'r', 'e', 'f'] target = some ⟨"href", String.ofList target⟩ := by
    have htrim : trimEndBy isSpace ['h', 'r', 'e', 'f'] = ['h', 'r', 'e', 'f'] := by decide
    rw [attribute?, htrim, if_neg (by simp)]
    rfl
  have hattributes : readAttributes ([' ', 'h', 'r', 'e', 'f', '=', '"'] ++ target ++ ['"']) =
      ([⟨"href", String.ofList target⟩], true) := by
    have hword : ([' ', 'h', 'r', 'e', 'f', '=', '"'] ++ (target ++ ['"'])).dropWhile isBlank =
        'h' :: 'r' :: 'e' :: 'f' :: '=' :: '"' :: (target ++ ['"']) := rfl
    rw [List.append_assoc, readAttributes_of_cons hword hvalue, readAttributes_of_nil rfl,
      List.append_nil]
    exact congrArg (fun a => (Option.toList a, true)) hname
  rw [read_of_attributes htrim (by decide) hattributes]
  rfl

/-- The text of the tag that closes a link is read as it was written. -/
theorem Tag.read_linkEnd : read linkEnd = .complete ⟨"/a", []⟩ := by cbv

namespace Writer

/-- The writer behind a link boundary, where its text was handed out. -/
def behindLink (w : Writer) (transition : Transition) (link : Option String) : Writer :=
  { w with layout := w.layout.clear, transition := transition, link := link }

/-- A link that opens ends the chunk before it. -/
theorem write_linkTag (w : Writer) {target : String} (h : '"' ∉ target.toList) :
    w.write (.tag (linkTag target.toList)) =
      (some ⟨w.layout.text, w.link, .linkOpened⟩, w.behindLink .linkOpened (some target)) := by
  rw [write, Tag.read_linkTag h, String.ofList_toList]
  rfl

/-- A link that closes ends the chunk before it. -/
theorem write_linkEnd (w : Writer) :
    w.write (.tag linkEnd) =
      (some ⟨w.layout.text, w.link, .linkClosed⟩, w.behindLink .linkClosed none) := by
  rw [write, Tag.read_linkEnd]
  rfl

end Writer

/-! ### Segments -/

/-- A part of a text that stands in one link, or in none. -/
structure Segment where
  /-- The text. -/
  text : List Char
  /-- The target of the link. -/
  link : Option String
  /-- The target can stand in quotes in a tag. -/
  quotable : ∀ target ∈ link, '"' ∉ target.toList ∧ '>' ∉ target.toList

namespace Segment

/-- The characters of a segment with their link. -/
def characters (s : Segment) : List (Char × Option String) := s.text.map fun c => (c, s.link)

/-- A segment as it is written in a body: the text escaped, between `<a href="...">` and `</a>` when
it is in a link. -/
def render (s : Segment) : List Char :=
  match s.link with
  | none => escape s.text
  | some target =>
    ['<', 'a', ' ', 'h', 'r', 'e', 'f', '=', '"'] ++ target.toList ++ ['"', '>'] ++
      escape s.text ++ ['<', '/', 'a', '>']

/-- The glyphs that are written for a segment. -/
def glyphs (s : Segment) : List Glyph :=
  match s.link with
  | none => s.text.map .char
  | some target => .tag (linkTag target.toList) :: (s.text.map .char ++ [.tag linkEnd])

theorem written_glyphs (s : Segment) : s.glyphs.flatMap Glyph.written = s.render := by
  have hchars : (s.text.map Glyph.char).flatMap Glyph.written = escape s.text :=
    List.flatMap_map ..
  rw [glyphs, render]
  cases s.link with
  | none => exact hchars
  | some target =>
    simp only [List.flatMap_cons, List.flatMap_append, hchars, Glyph.written, linkTag, linkEnd]
    simp

/-- A segment is written with no tags but those of its link. -/
theorem mem_glyphs {s : Segment} {g : Glyph} (h : g ∈ s.glyphs) :
    (∃ c, g = .char c) ∨ (∃ target, s.link = some target ∧ g = .tag (linkTag target.toList)) ∨
      g = .tag linkEnd := by
  rw [glyphs] at h
  split at h
  · obtain ⟨c, -, rfl⟩ := List.mem_map.1 h
    exact .inl ⟨c, rfl⟩
  · rename_i target hlink
    rcases List.mem_cons.1 h with rfl | h
    · exact .inr (.inl ⟨target, hlink, rfl⟩)
    · rcases List.mem_append.1 h with h | h
      · obtain ⟨c, -, rfl⟩ := List.mem_map.1 h
        exact .inl ⟨c, rfl⟩
      · exact .inr (.inr (List.mem_singleton.1 h))

/-- The tags of links open no blocks. -/
theorem told_glyphs (s : Segment) : ∀ g ∈ s.glyphs, g.Told := by
  intro g hg
  rcases mem_glyphs hg with ⟨c, rfl⟩ | ⟨target, hlink, rfl⟩ | rfl
  · trivial
  · refine ⟨?_, fun rest => rfl⟩
    simp [linkTag, (s.quotable target hlink).2]
  · exact ⟨by decide, fun rest => rfl⟩

theorem inline_glyphs (s : Segment) : ∀ g ∈ s.glyphs, g.Inline := by
  intro g hg w hw
  rcases mem_glyphs hg with ⟨c, rfl⟩ | ⟨target, hlink, rfl⟩ | rfl
  · exact Glyph.inline_char c w hw
  · rw [Glyph.item, w.write_linkTag (s.quotable target hlink).1]
    exact hw
  · rw [Glyph.item, w.write_linkEnd]
    exact hw

end Segment

namespace Writer

variable {w : Writer}

/-- Writing a segment hands out some characters and leaves others, which together are what is made
of the segment. -/
theorem exists_compose_segment (hw : w.layout.preformatted = false) (hlink : w.link = none)
    (s : Segment) :
    ∃ (before : List (Char × Option String)) (w' : Writer),
      w'.layout.preformatted = false ∧ w'.link = none ∧
        (∀ items, (w.compose (s.glyphs.map Glyph.item ++ items)).flatMap Passage.characters =
          before ++ (w'.compose items).flatMap Passage.characters) ∧
        ∀ rest, before ++ (withLink w'.layout.text none ++ w'.layout.respaced rest) =
          withLink w.layout.text none ++ w.layout.respaced (s.characters ++ rest) := by
  rw [Segment.glyphs, Segment.characters]
  cases hs : s.link with
  | none =>
    refine ⟨[], w.writePlain s.text, preformatted_writePlain hw s.text,
      (w.link_writePlain s.text).trans hlink, ?_, ?_⟩
    · intro items
      simp only [compose_chars, List.nil_append]
    · intro rest
      have hwritten := respaced_writePlain hw s.text rest
      rwa [hlink] at hwritten
  | some target =>
    have hopen := w.write_linkTag (s.quotable target hs).1
    generalize hopened : w.behindLink .linkOpened (some target) = v at hopen
    have hv : v.layout.preformatted = false := hopened ▸ hw
    have hv_link : v.link = some target := hopened ▸ rfl
    have hwritten := respaced_writePlain hv s.text
    rw [hv_link] at hwritten
    have hclose := (v.writePlain s.text).write_linkEnd
    rw [link_writePlain, hv_link] at hclose
    refine ⟨withLink w.layout.text none ++ withLink (v.writePlain s.text).layout.text (some target),
      (v.writePlain s.text).behindLink .linkClosed none, preformatted_writePlain hv s.text, rfl,
      ?_, ?_⟩
    · intro items
      simp only [List.map_cons, List.map_append, List.map_nil, List.cons_append, List.append_assoc,
        List.nil_append]
      rw [Glyph.item, compose_of_some hopen, compose_chars, Glyph.item, compose_of_some hclose,
        List.flatMap_cons, List.flatMap_cons, hlink]
      rfl
    · intro rest
      have hspaces : v.layout.respaced = w.layout.respaced := hopened ▸ rfl
      have htext : v.layout.text = "" := hopened ▸ rfl
      rw [List.append_assoc, ← hspaces]
      apply congrArg (withLink w.layout.text none ++ ·)
      rw [htext] at hwritten
      exact hwritten rest

/-- The characters that segments are composed to, behind those that were written before. -/
theorem characters_compose (hw : w.layout.preformatted = false) (hlink : w.link = none)
    (segments : List Segment) :
    (w.compose ((segments.flatMap Segment.glyphs).map Glyph.item)).flatMap Passage.characters =
      withLink w.layout.text none ++
        w.layout.respaced (segments.flatMap Segment.characters) := by
  induction segments generalizing w with
  | nil =>
    rw [List.flatMap_nil, List.map_nil, compose, Passage.characters_prepend (by simp), hlink]
    rfl
  | cons s segments ih =>
    obtain ⟨before, w', hw', hlink', hcompose, hrest⟩ := exists_compose_segment hw hlink s
    rw [List.flatMap_cons, List.flatMap_cons, List.map_append, hcompose, ih hw' hlink', hrest]

end Writer

/-! ### The conversion of segments -/

namespace Converter

/-- **What is written with its links is given back with its links.** However the bytes of the
segments arrive, and wherever a limit with room for a character cuts them, the characters of the
chunks are those of the segments, each with the link that it was written in, and with its blanks
collapsed. -/
theorem characters_run_render {stream : Stream} {segments : List Segment}
    (hstream : stream.Unbroken)
    (hbytes : stream.bytes = Utf8.encode (segments.flatMap Segment.render)) (config : Config)
    (hlimit : 4 ≤ config.lineLimit) :
    (start stream .utf8 config).run.failure = none ∧
      ((start stream .utf8 config).run.chunks.map Prod.fst).flatMap Chunk.characters =
        collapsed (segments.flatMap Segment.characters) := by
  obtain ⟨hfailure, hdelivers⟩ := delivers_encode hstream hbytes hlimit
  refine ⟨hfailure, ?_⟩
  have hwritten : (segments.flatMap Segment.glyphs).flatMap Glyph.written =
      segments.flatMap Segment.render := by
    rw [List.flatMap_assoc]
    exact List.flatMap_congr fun s _ => s.written_glyphs
  have htold : ∀ g ∈ segments.flatMap Segment.glyphs, g.Told := by
    intro g hg
    obtain ⟨s, -, hs⟩ := List.mem_flatMap.1 hg
    exact s.told_glyphs g hs
  have hinline : ∀ g ∈ segments.flatMap Segment.glyphs, g.Inline := by
    intro g hg
    obtain ⟨s, -, hs⟩ := List.mem_flatMap.1 hg
    exact s.inline_glyphs g hs
  have hreads := Supply.reads_items (lined_pieces hlimit _) htold
    ((text_pieces hlimit _).trans hwritten.symm)
  rw [hdelivers.characters_eq, hreads.compose_eq hinline rfl, Writer.characters_compose rfl rfl]
  exact respaced_eq_collapsed _

/-- Segments whose tags, references and characters a limit of four bytes cuts, with a CR LF of which
the LF is in a link. -/
def cutSegments : List Segment :=
  [⟨['a', '\r'], none, nofun⟩, ⟨['\n', 'é', '<'], some "x<y", by decide⟩,
    ⟨['\t', '&', 'b', ' '], none, nofun⟩]

/-- Under a limit of four bytes, each space is in the link of the character behind it. -/
theorem characters_run_of_cut_tags :
    (Stream.Unbroken [.segment (Utf8.encode (cutSegments.flatMap Segment.render)), .pause] ∧
        Stream.bytes [.segment (Utf8.encode (cutSegments.flatMap Segment.render)), .pause] =
          Utf8.encode (cutSegments.flatMap Segment.render) ∧ 4 ≤ 4) ∧
      ((start [.segment (Utf8.encode (cutSegments.flatMap Segment.render)), .pause] .utf8
          { lineLimit := 4 }).run.chunks.map Prod.fst).flatMap Chunk.characters =
        [('a', none), (' ', some "x<y"), ('é', some "x<y"), ('<', some "x<y"), (' ', none),
          ('&', none), ('b', none)] := by
  have hstream : Stream.Unbroken
      [.segment (Utf8.encode (cutSegments.flatMap Segment.render)), .pause] := ⟨rfl, trivial⟩
  have hbytes : Stream.bytes [.segment (Utf8.encode (cutSegments.flatMap Segment.render)), .pause] =
      Utf8.encode (cutSegments.flatMap Segment.render) := List.append_nil _
  have hcharacters := (characters_run_render hstream hbytes { lineLimit := 4 } (by decide)).2
  exact ⟨⟨hstream, hbytes, by decide⟩, hcharacters.trans (by decide)⟩

end Converter

end BodyText
