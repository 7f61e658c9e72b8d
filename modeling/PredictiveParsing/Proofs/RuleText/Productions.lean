import PredictiveParsing.Proofs.RuleText.Comments
import PredictiveParsing.Proofs.RuleText.Notation

/-!
# Reading what is written

A text in the notation of productions reads as the productions that it
writes. It holds no comment, so that the cut into lines and into sections
between semicolons sees the text itself. In a section the first line of each
production starts it and its other lines, which begin with a bar, continue
it; so the lines are grouped as they were written, whether a production ends
with its line or with a semicolon.
-/

namespace PredictiveParsing.RuleText

open Text

/-! ### Characters of the notation -/

/-- Written alternatives hold nothing but content, blanks and bars. -/
theorem AlternativesWritten.notMem {alternatives : List (List String)} {s : List Char}
    (h : AlternativesWritten alternatives s)
    (plain : ∀ names ∈ alternatives, ∀ name ∈ names, IsPlain name) {c : Char}
    (hc : isContentChar c = false) (hb : isBlank c = false) (hbar : c ≠ '|') : c ∉ s := by
  have hn : c ≠ '\n' := (ne_of_class (by rfl : isBlank '\n' = true) hb).symm
  induction h with
  | one written => exact notMem_of_content (written.isContentChar (plain _ List.mem_cons_self)) hc
  | sameLine written rest ih =>
    obtain ⟨hnames, hothers⟩ := List.forall_mem_cons.mp plain
    rw [List.mem_append, List.mem_cons]
    rintro (h | h | h)
    · exact notMem_of_content (written.isContentChar hnames) hc h
    · exact hbar h
    · exact ih hothers h
  | nextLine written blanks rest ih =>
    obtain ⟨hnames, hothers⟩ := List.forall_mem_cons.mp plain
    rw [List.mem_append, List.mem_cons, List.mem_append, List.mem_cons]
    rintro (h | h | h | h | h)
    · exact notMem_of_content (written.isContentChar hnames) hc h
    · exact hn h
    · exact ne_of_class (blanks c h) hb rfl
    · exact hbar h
    · exact ih hothers h

/-- The characters that are neither content nor blank in a written
production: bars, and those of the arrows. -/
theorem ProductionWritten.notMem {p : Production} {s : List Char} (h : ProductionWritten p s)
    (plain : p.Plain) {c : Char} (hc : isContentChar c = false) (hb : isBlank c = false)
    (hmarks : c ∉ ['|', '-', '>', ':', '=']) : c ∉ s := by
  cases h with
  | @intro before between body arrow left blanks arrows alternatives =>
    have harrow : c ∉ arrow.toList := by
      intro h
      simp only [List.mem_cons, List.not_mem_nil, or_false] at arrows
      refine hmarks ?_
      rcases arrows with rfl | rfl | rfl | rfl <;> simp at h ⊢ <;> grind
    rw [List.mem_append, List.mem_append, List.mem_append, List.mem_append]
    rintro (h | ((h | h) | h) | h)
    · exact notMem_of_content (isContentChar_of_isGap left) hc h
    · exact notMem_of_content plain.head.isName.isContentChar hc h
    · exact notMem_of_content (isContentChar_of_isGap blanks) hc h
    · exact harrow h
    · exact alternatives.notMem plain.names hc hb (fun e => hmarks (e ▸ List.mem_cons_self)) h

/-! ### The head and the first line -/

/-- A line that writes the head, an arrow and the first alternatives is cut
after the arrow. -/
theorem splitHead?_append {head between rest : List Char} {arrow : String} (hn : IsName head)
    (hb : IsGap between) (ha : arrow ∈ ["->", ":", "::=", "="])
    (hr : ∀ c, rest.head? = some c → c ≠ ':' ∧ c ≠ '=') :
    splitHead? (head ++ between ++ arrow.toList ++ rest) = some (head, trimStart rest) := by
  have hstart : trimStart (head ++ (between ++ (arrow.toList ++ rest))) =
      head ++ (between ++ (arrow.toList ++ rest)) := by
    obtain ⟨c, more, rfl, hc⟩ := id hn.exists_cons
    exact trimStart_cons (hn.not_isBlank c List.mem_cons_self) _
  have hends : EndsName (between ++ (arrow.toList ++ rest)) := by
    refine endsName_append hb ?_
    simp only [List.mem_cons, List.not_mem_nil, or_false] at ha
    rcases ha with rfl | rfl | rfl | rfl <;> exact endsName_cons rfl (by decide)
  have harrow : afterArrow? (trimStart (between ++ (arrow.toList ++ rest))) = some rest := by
    rw [trimStart_append_left hb.1]
    simp only [List.mem_cons, List.not_mem_nil, or_false] at ha
    rcases ha with rfl | rfl | rfl | rfl
    · rfl
    · have hcolon : trimStart (":".toList ++ rest) = ':' :: rest := trimStart_cons rfl rest
      rw [hcolon, afterArrow?]
      · rintro _ rfl
        exact (hr _ rfl).1 rfl
      · rintro _ rfl
        exact (hr _ rfl).2 rfl
    · rfl
    · rfl
  rw [List.append_assoc, List.append_assoc, splitHead?, hstart, headName?_append hn hends]
  dsimp only
  rw [harrow]

/-- Arrows lie on one line and do not end in a blank. -/
theorem exists_concat_of_mem_arrows {arrow : String} (h : arrow ∈ ["->", ":", "::=", "="]) :
    '\n' ∉ arrow.toList ∧ ∃ init c, arrow.toList = init ++ [c] ∧ isBlank c = false := by
  simp only [List.mem_cons, List.not_mem_nil, or_false] at h
  rcases h with rfl | rfl | rfl | rfl
  · exact ⟨by decide, ['-'], '>', rfl, rfl⟩
  · exact ⟨by decide, [], ':', rfl, rfl⟩
  · exact ⟨by decide, [':', ':'], '=', rfl, rfl⟩
  · exact ⟨by decide, [], '=', rfl, rfl⟩

/-- What follows an arrow begins neither with a colon nor with an equals
sign. -/
theorem Spread.head?_ne {alternatives : List (List String)} {s first : List Char}
    {further : List (List Char)} (h : Spread alternatives s first further)
    (lines : List (List Char)) :
    ∀ c, (trimEnd first ++ furtherLines lines).head? = some c → c ≠ ':' ∧ c ≠ '=' := by
  cases hfirst : trimEnd first with
  | nil =>
    cases lines with
    | nil => rintro c ⟨⟩
    | cons line lines =>
      rintro c ⟨⟩
      decide
  | cons d more =>
    rintro c ⟨⟩
    have hmem : d ∈ trimEnd first := hfirst ▸ List.mem_cons_self
    rcases h.content d (mem_of_mem_trimEnd hmem) with hd | rfl
    · exact ⟨ne_of_class hd rfl, ne_of_class hd rfl⟩
    · decide

/-- A first line has blanks to lose only behind its alternatives. -/
theorem trim_firstLine {head between first : List Char} {arrow : String} (hn : IsName head)
    (ha : arrow ∈ ["->", ":", "::=", "="]) :
    trim (head ++ between ++ arrow.toList ++ first) =
      head ++ between ++ arrow.toList ++ trimEnd first := by
  have hstart : trimStart (head ++ between ++ arrow.toList ++ first) =
      head ++ between ++ arrow.toList ++ first := by
    obtain ⟨c, more, rfl, -⟩ := id hn.exists_cons
    exact trimStart_cons (hn.not_isBlank c List.mem_cons_self) _
  obtain ⟨-, init, last, harrow, hlast⟩ := exists_concat_of_mem_arrows ha
  have hend := trimEnd_append_cons hlast (head ++ between ++ init) first
  rw [trim, hstart, harrow]
  simpa using hend

/-- What a written production is cut into: a line that starts it and lines
that continue it, which read as the production when they are put together. -/
theorem ProductionWritten.exists_lines {p : Production} {s : List Char}
    (h : ProductionWritten p s) (plain : p.Plain) :
    ∃ line further, lineTexts s = line :: further.map ('|' :: ·) ∧
      (splitHead? line).isSome = true ∧
      production? (line ++ furtherLines further) = some p.withEmptyNames := by
  cases h with
  | @intro before between body arrow left blanks arrows alternatives =>
    obtain ⟨first, further, spread⟩ := alternatives.exists_spread plain.names
    obtain ⟨hbreak, init, last, harrow, hlast⟩ := exists_concat_of_mem_arrows arrows
    have hname := plain.head.isName
    have hstart : '\n' ∉ p.head.toList ++ between ++ arrow.toList := by
      rw [List.mem_append, List.mem_append]
      rintro ((h | h) | h)
      · exact notMem_of_content hname.isContentChar rfl h
      · exact blanks.2 h
      · exact hbreak h
    have hlines := spread.lines _ hstart ⟨last, by simp [harrow], hlast⟩
    rw [trim_firstLine hname arrows] at hlines
    have hsplit : ∀ lines, splitHead?
        (p.head.toList ++ between ++ arrow.toList ++ trimEnd first ++ furtherLines lines) =
          some (p.head.toList, trimStart (trimEnd first ++ furtherLines lines)) := by
      intro lines
      rw [List.append_assoc _ (trimEnd first)]
      exact splitHead?_append hname blanks arrows (spread.head?_ne lines)
    have hcells : cells (trimStart (trimEnd first ++ furtherLines further)) =
        p.alternatives.map withEmptyName := by
      rw [ignoresBlanks_cells.trimStart, cells_furtherLines, ignoresBlanks_cells.trimEnd,
        spread.cells]
    refine ⟨p.head.toList ++ between ++ arrow.toList ++ trimEnd first, further, ?_, ?_, ?_⟩
    · rw [ignoresBlanks_lineTexts.append_left left.1, hlines]
    · have hline := hsplit []
      rw [furtherLines, List.flatMap_nil, List.append_nil] at hline
      rw [hline]
      rfl
    · rw [production?, hsplit, Option.map_some, Production.withEmptyNames, ← hcells]
      dsimp only
      rw [String.ofList_toList]
      rfl

/-! ### Grouping of lines -/

/-- Lines that do not continue what stands before them. -/
def StartsAnew (lines : List (List Char)) : Prop :=
  ∀ line, lines.head? = some line → (splitHead? line).isSome = true

/-- A production before lines that start anew is complete. -/
theorem groupLines_some {lines : List (List Char)} (h : StartsAnew lines) (text : List Char) :
    groupLines (some text) lines = (groupLines none lines).map (text :: ·) := by
  cases lines with
  | nil => rfl
  | cons line lines =>
    have hline := h line rfl
    rw [groupLines, if_pos hline, groupLines, if_pos hline]
    cases groupLines (some line) lines <;> rfl

/-- A line that begins with a bar starts no production. -/
theorem splitHead?_bar (line : List Char) : splitHead? ('|' :: line) = none := by
  have hbar : headName? ('|' :: line) = none := by
    rw [headName?, wordName?, if_neg (by decide), tagName?]
    · rfl
    · rintro _ ⟨⟩
  rw [splitHead?, trimStart_cons rfl, hbar]

/-- Lines that begin with a bar continue a production. -/
theorem groupLines_furtherLines (text : List Char) (further lines : List (List Char)) :
    groupLines (some text) (further.map ('|' :: ·) ++ lines) =
      groupLines (some (text ++ furtherLines further)) lines := by
  induction further generalizing text with
  | nil => rw [furtherLines, List.flatMap_nil, List.append_nil]; rfl
  | cons line further ih =>
    rw [List.map_cons, List.cons_append, groupLines, splitHead?_bar, if_neg (by decide), ih]
    simp [furtherLines]

/-- The lines of a production are grouped into its text. -/
theorem groupLines_production {line : List Char} (h : (splitHead? line).isSome = true)
    (further : List (List Char)) {lines : List (List Char)} (hlines : StartsAnew lines) :
    groupLines none (line :: further.map ('|' :: ·) ++ lines) =
      (groupLines none lines).map ((line ++ furtherLines further) :: ·) := by
  rw [List.cons_append, groupLines, if_pos h, groupLines_furtherLines, groupLines_some hlines]
  cases groupLines none lines <;> rfl

/-- The texts of the productions of several sections. -/
def sectionProductions : List (List (List Char)) → Except GrammarFault (List (List Char))
  | [] => .ok []
  | lines :: rest => do
    let first ← groupLines none lines
    let others ← sectionProductions rest
    pure (first ++ others)

/-- A block is read by its lines. -/
theorem blockProductions_eq (block : List Char) :
    blockProductions block = groupLines none (lineTexts block) :=
  congrArg (groupLines none) (ignoresBlanks_lineTexts.trim block)

/-- Blocks are read by their lines. -/
theorem allProductions_eq (blocks : List (List Char)) :
    allProductions blocks = sectionProductions (blocks.map lineTexts) := by
  induction blocks with
  | nil => rfl
  | cons block blocks ih =>
    rw [allProductions, blockProductions_eq, ih]
    rfl

/-- The productions of a text are grouped in its sections, without comments. -/
theorem allProductions_contentLines (s : List Char) :
    allProductions (pieces ';' (joinWith ['\n'] (contentLines s))) =
      sectionProductions (sections ';' (dropComments s)) := by
  rw [allProductions_eq]
  exact congrArg sectionProductions (sections_lineTexts rfl (dropComments s))

/-- Sections that read as productions, and that a production may precede. -/
structure Reads (sections : List (List (List Char))) (productions : List Production) : Prop where
  /-- There is a section, and it starts anew. -/
  startsAnew : ∃ lines others, sections = lines :: others ∧ StartsAnew lines
  /-- The sections are grouped into texts that read as the productions. -/
  texts : ∃ texts, sectionProductions sections = .ok texts ∧
    texts.filterMap production? = productions.map Production.withEmptyNames

namespace Reads

variable {sections : List (List (List Char))} {productions : List Production}

/-- A section without lines holds no production. -/
theorem nothing : Reads [[]] [] := by
  refine ⟨⟨[], [], rfl, ?_⟩, ⟨[], rfl, rfl⟩⟩
  rintro line ⟨⟩

/-- A section without lines before others. -/
theorem skip (h : Reads sections productions) : Reads ([] :: sections) productions := by
  obtain ⟨texts, htexts, hread⟩ := h.texts
  refine ⟨⟨[], sections, rfl, ?_⟩, texts, ?_, hread⟩
  · rintro line ⟨⟩
  · rw [sectionProductions, htexts]
    rfl

variable {p : Production} {line : List Char} {further : List (List Char)}

/-- A production on the lines before the first section. -/
theorem more (h : Reads sections productions) (hline : (splitHead? line).isSome = true)
    (hread : production? (line ++ furtherLines further) = some p.withEmptyNames) :
    Reads (glue [line :: further.map ('|' :: ·)] sections) (p :: productions) := by
  obtain ⟨lines, others, rfl, hlines⟩ := h.startsAnew
  obtain ⟨texts, htexts, hproductions⟩ := h.texts
  refine ⟨⟨_, others, rfl, ?_⟩, (line ++ furtherLines further) :: texts, ?_, ?_⟩
  · rintro first ⟨⟩
    exact hline
  · rw [glue, sectionProductions, groupLines_production hline further hlines]
    rw [sectionProductions] at htexts
    cases hgroup : groupLines none lines with
    | error fault =>
      rw [hgroup] at htexts
      cases htexts
    | ok grouped =>
      rw [hgroup] at htexts
      cases hothers : sectionProductions others with
      | error fault =>
        rw [hothers] at htexts
        cases htexts
      | ok more =>
        rw [hothers] at htexts
        cases htexts
        rfl
  · rw [List.filterMap_cons, hread, hproductions]
    rfl

end Reads

/-- A written text has sections that read as its productions. -/
theorem TextWritten.reads {productions : List Production} {s : List Char}
    (h : TextWritten productions s) (plain : ∀ p ∈ productions, p.Plain) :
    Reads (sections ';' s) productions := by
  have gap : ∀ {t : List Char}, IsGap t → sections ';' t = [[]] := by
    intro t ht
    have hlines := ignoresBlanks_lineTexts.append_left ht.1 []
    rw [List.append_nil] at hlines
    rw [sections_of_notMem (notMem_of_content (isContentChar_of_isGap ht) rfl), hlines]
    rfl
  have single : ∀ {p : Production} {t : List Char}, ProductionWritten p t → p.Plain →
      sections ';' t = [lineTexts t] :=
    fun written hp => sections_of_notMem (written.notMem hp rfl rfl (by decide))
  induction h with
  | nothing blanks => rw [gap blanks]; exact .nothing
  | @skip productions mark s t blanks ends rest ih =>
    have hrest := ih plain
    rcases ends with rfl | rfl
    · rwa [sections_append_line rfl, gap blanks, nil_glue (sections_ne_nil ';' t)]
    · rw [sections_append_cons, gap blanks]
      exact hrest.skip
  | last written =>
    have hp := plain _ List.mem_cons_self
    obtain ⟨line, further, hlines, hline, hread⟩ := written.exists_lines hp
    have h := Reads.nothing.more hline hread
    rw [single written hp, hlines]
    rwa [glue_nil (List.cons_ne_nil _ _)] at h
  | @more p productions mark s t written ends rest ih =>
    obtain ⟨hp, hothers⟩ := List.forall_mem_cons.mp plain
    obtain ⟨line, further, hlines, hline, hread⟩ := written.exists_lines hp
    have hrest := ih hothers
    rcases ends with rfl | rfl
    · rw [sections_append_line rfl, single written hp, hlines]
      exact hrest.more hline hread
    · have h := hrest.skip.more hline hread
      rw [glue, List.append_nil] at h
      rw [sections_append_cons, single written hp, hlines]
      exact h

/-- A written text has no slash. -/
theorem TextWritten.notMem {productions : List Production} {s : List Char}
    (h : TextWritten productions s) (plain : ∀ p ∈ productions, p.Plain) : '/' ∉ s := by
  induction h with
  | nothing blanks => exact notMem_of_content (isContentChar_of_isGap blanks) rfl
  | skip blanks ends rest ih =>
    rw [List.mem_append, List.mem_cons]
    rintro (h | h | h)
    · exact notMem_of_content (isContentChar_of_isGap blanks) rfl h
    · rcases ends with rfl | rfl <;> cases h
    · exact ih plain h
  | last written => exact written.notMem (plain _ List.mem_cons_self) rfl rfl (by decide)
  | more written ends rest ih =>
    obtain ⟨hp, hothers⟩ := List.forall_mem_cons.mp plain
    rw [List.mem_append, List.mem_cons]
    rintro (h | h | h)
    · exact written.notMem hp rfl rfl (by decide) h
    · rcases ends with rfl | rfl <;> cases h
    · exact ih hothers h

/-- A text reads as the productions that its sections are grouped into. -/
theorem readProductions_of_sections {source : String} {texts : List (List Char)}
    {productions : List Production}
    (htexts : sectionProductions (sections ';' (dropComments source.toList)) = .ok texts)
    (hread : texts.filterMap production? = productions) (hne : productions ≠ []) :
    readProductions source = .ok productions := by
  obtain ⟨p, others, rfl⟩ := List.exists_cons_of_ne_nil hne
  rw [readProductions, allProductions_contentLines, htexts]
  dsimp only [bind, Except.bind]
  rw [hread]

/-- A written text reads as its productions. -/
theorem readProductions_of_written {productions : List Production} {text : String}
    (h : TextWritten productions text.toList) (plain : ∀ p ∈ productions, p.Plain)
    (hne : productions ≠ []) :
    readProductions text = .ok (productions.map Production.withEmptyNames) := by
  obtain ⟨texts, htexts, hread⟩ := (h.reads plain).texts
  rw [← dropComments_of_notMem (h.notMem plain)] at htexts
  exact readProductions_of_sections htexts hread fun he => hne (List.map_eq_nil_iff.mp he)

end PredictiveParsing.RuleText
