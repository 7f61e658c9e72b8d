import PredictiveParsing.Proofs.RuleText.Names

/-!
# The notation of productions

Texts in which productions are written, stated apart from their reading: the
names of an alternative with blanks between them or a spelling of the empty
string, alternatives with bars between them on one line or on further lines
that begin with a bar, a head and an arrow before the alternatives, and
productions that end with their line or with a semicolon. Blanks may stand
around all of these, and blank lines between them. A production that is
written by names has an alternative without names for the empty string.

Of a written production this module says how it is cut: its alternatives
read as they were written, and its text consists of a line that starts a
production and of lines that begin with a bar.
-/

namespace PredictiveParsing.RuleText

open Text

/-- A run of blanks within a line. -/
def IsGap (s : List Char) : Prop := IsBlanks s ∧ '\n' ∉ s

/-- A name that stands for itself in the notation. -/
structure IsPlain (name : String) : Prop where
  /-- It is a plain name. -/
  isName : IsName name.toList
  /-- It is not the short spelling of the empty string. -/
  ne_short : name ≠ "e"
  /-- It is not the long spelling of the empty string. -/
  ne_long : name ≠ "epsilon"

/-- A production in plain names, with at least one alternative. -/
structure Production.Plain (p : Production) : Prop where
  /-- The head is plain. -/
  head : IsPlain p.head
  /-- There is an alternative. -/
  ne_nil : p.alternatives ≠ []
  /-- The names of the alternatives are plain. -/
  names : ∀ names ∈ p.alternatives, ∀ name ∈ names, IsPlain name

/-- Names with blanks between them. -/
inductive NamesWritten : List String → List Char → Prop
  /-- A name on its own. -/
  | one (name : String) : NamesWritten [name] name.toList
  /-- A name before others. -/
  | more (name : String) {names : List String} {gap s : List Char} (blanks : IsGap gap)
      (apart : gap ≠ []) (rest : NamesWritten names s) :
      NamesWritten (name :: names) (name.toList ++ gap ++ s)

/-- The names of an alternative, or a spelling of the empty string. -/
inductive AlternativeWritten : List String → List Char → Prop
  /-- The empty string, spelled out or left blank. -/
  | empty {spelling : String} {before after : List Char}
      (spelled : spelling ∈ ["", "e", "epsilon", "ε"]) (left : IsGap before)
      (right : IsGap after) : AlternativeWritten [] (before ++ spelling.toList ++ after)
  /-- One name or several. -/
  | names {names : List String} {before s after : List Char} (written : NamesWritten names s)
      (left : IsGap before) (right : IsGap after) :
      AlternativeWritten names (before ++ s ++ after)

/-- Alternatives with bars between them. -/
inductive AlternativesWritten : List (List String) → List Char → Prop
  /-- An alternative on its own. -/
  | one {names : List String} {s : List Char} (written : AlternativeWritten names s) :
      AlternativesWritten [names] s
  /-- The next alternative stands on the same line. -/
  | sameLine {names : List String} {alternatives : List (List String)} {s t : List Char}
      (written : AlternativeWritten names s) (rest : AlternativesWritten alternatives t) :
      AlternativesWritten (names :: alternatives) (s ++ '|' :: t)
  /-- The next alternative stands on a further line, which begins with the
  bar. -/
  | nextLine {names : List String} {alternatives : List (List String)} {s lead t : List Char}
      (written : AlternativeWritten names s) (blanks : IsBlanks lead)
      (rest : AlternativesWritten alternatives t) :
      AlternativesWritten (names :: alternatives) (s ++ '\n' :: (lead ++ '|' :: t))

/-- A head, an arrow and the alternatives. -/
inductive ProductionWritten : Production → List Char → Prop
  /-- The head and the arrow stand on the first line. -/
  | intro {p : Production} {before between body : List Char} {arrow : String}
      (left : IsGap before) (blanks : IsGap between) (arrows : arrow ∈ ["->", ":", "::=", "="])
      (alternatives : AlternativesWritten p.alternatives body) :
      ProductionWritten p (before ++ (p.head.toList ++ between ++ arrow.toList ++ body))

/-- Productions, each of which ends with its line, with a semicolon or with
the text. -/
inductive TextWritten : List Production → List Char → Prop
  /-- Nothing is left to write. -/
  | nothing {s : List Char} (blanks : IsGap s) : TextWritten [] s
  /-- A blank line or a semicolon more than needed. -/
  | skip {productions : List Production} {mark : Char} {s t : List Char} (blanks : IsGap s)
      (ends : mark = '\n' ∨ mark = ';') (rest : TextWritten productions t) :
      TextWritten productions (s ++ mark :: t)
  /-- The last production ends with the text. -/
  | last {p : Production} {s : List Char} (written : ProductionWritten p s) : TextWritten [p] s
  /-- A production before others. -/
  | more {p : Production} {productions : List Production} {mark : Char} {s t : List Char}
      (written : ProductionWritten p s) (ends : mark = '\n' ∨ mark = ';')
      (rest : TextWritten productions t) : TextWritten (p :: productions) (s ++ mark :: t)

/-! ### There is a text for every production -/

theorem isGap_nil : IsGap [] := ⟨List.forall_mem_nil _, List.not_mem_nil⟩

theorem isGap_space : IsGap [' '] := ⟨by simp [IsBlanks, isBlank], by decide⟩

theorem exists_namesWritten (name : String) (names : List String) :
    ∃ s, NamesWritten (name :: names) s := by
  induction names generalizing name with
  | nil => exact ⟨_, .one name⟩
  | cons next names ih =>
    obtain ⟨s, hs⟩ := ih next
    exact ⟨_, .more name isGap_space (List.cons_ne_nil _ _) hs⟩

theorem exists_alternativeWritten (names : List String) : ∃ s, AlternativeWritten names s := by
  cases names with
  | nil => exact ⟨_, .empty List.mem_cons_self isGap_nil isGap_nil⟩
  | cons name names =>
    obtain ⟨s, hs⟩ := exists_namesWritten name names
    exact ⟨_, .names hs isGap_nil isGap_nil⟩

theorem exists_alternativesWritten {alternatives : List (List String)} (h : alternatives ≠ []) :
    ∃ s, AlternativesWritten alternatives s := by
  induction alternatives with
  | nil => exact absurd rfl h
  | cons names alternatives ih =>
    obtain ⟨s, hs⟩ := exists_alternativeWritten names
    cases alternatives with
    | nil => exact ⟨s, .one hs⟩
    | cons next alternatives =>
      obtain ⟨t, ht⟩ := ih (List.cons_ne_nil _ _)
      exact ⟨_, .sameLine hs ht⟩

/-- Productions with alternatives can be written. -/
theorem exists_textWritten {productions : List Production}
    (h : ∀ p ∈ productions, p.alternatives ≠ []) : ∃ s, TextWritten productions s := by
  induction productions with
  | nil => exact ⟨[], .nothing isGap_nil⟩
  | cons p productions ih =>
    obtain ⟨hp, hothers⟩ := List.forall_mem_cons.mp h
    obtain ⟨body, hbody⟩ := exists_alternativesWritten hp
    obtain ⟨t, ht⟩ := ih hothers
    exact ⟨_, .more (.intro isGap_nil isGap_nil List.mem_cons_self hbody) (.inl rfl) ht⟩

/-- The names of an alternative as they are read: the empty string has the
empty name. -/
def withEmptyName : List String → List String
  | [] => [""]
  | name :: names => name :: names

/-- A production as it is read. -/
def Production.withEmptyNames (p : Production) : Production :=
  ⟨p.head, p.alternatives.map withEmptyName⟩

/-! ### Alternatives -/

theorem isContentChar_of_isGap {s : List Char} (h : IsGap s) :
    ∀ c ∈ s, isContentChar c = true := by
  intro c hc
  have hn : c ≠ '\n' := by
    rintro rfl
    exact h.2 hc
  simp [isContentChar, h.1 c hc, hn]

/-- A text does not hold a character of which the notation makes something
else than content. -/
theorem notMem_of_content {s : List Char} (h : ∀ c ∈ s, isContentChar c = true) {c : Char}
    (hc : isContentChar c = false) : c ∉ s := by
  intro hmem
  rw [h c hmem] at hc
  cases hc

/-- Blanks end a name. -/
theorem endsName_append {gap : List Char} (h : IsGap gap) {s : List Char} (hs : EndsName s) :
    EndsName (gap ++ s) := by
  cases gap with
  | nil => exact hs
  | cons c gap => exact endsName_of_isBlank (h.1 c List.mem_cons_self)

namespace NamesWritten

variable {written : List String} {s : List Char}

theorem isContentChar (h : NamesWritten written s) (plain : ∀ name ∈ written, IsPlain name) :
    ∀ c ∈ s, isContentChar c = true := by
  induction h with
  | one name => exact (plain name List.mem_cons_self).isName.isContentChar
  | more name blanks apart rest ih =>
    obtain ⟨hname, hnames⟩ := List.forall_mem_cons.mp plain
    rw [List.forall_mem_append, List.forall_mem_append]
    exact ⟨⟨hname.isName.isContentChar, isContentChar_of_isGap blanks⟩, ih hnames⟩

/-- The names are found as they are written. -/
theorem names_eq (h : NamesWritten written s) (plain : ∀ name ∈ written, IsPlain name) :
    names s = written.map String.toList := by
  induction h with
  | one name =>
    have hscan := names_append (plain name List.mem_cons_self).isName endsName_nil
    rwa [List.append_nil, names_nil] at hscan
  | @more name names gap s blanks apart rest ih =>
    obtain ⟨hname, hnames⟩ := List.forall_mem_cons.mp plain
    have hends : EndsName (gap ++ s) := by
      obtain ⟨c, more, rfl⟩ := List.exists_cons_of_ne_nil apart
      exact endsName_of_isBlank (blanks.1 c List.mem_cons_self)
    rw [List.append_assoc, names_append hname.isName hends, names_append_of_isBlanks blanks.1,
      ih hnames, List.map_cons]

/-- Written names begin as the first of them does. -/
theorem exists_cons (h : NamesWritten written s) (plain : ∀ name ∈ written, IsPlain name) :
    ∃ c more, s = c :: more ∧ (isNameStart c = true ∨ c = '<') := by
  cases h with
  | one name => exact (plain name List.mem_cons_self).isName.exists_cons
  | more name blanks apart rest =>
    obtain ⟨c, more, hcons, hc⟩ := (plain name List.mem_cons_self).isName.exists_cons
    exact ⟨c, _, by rw [hcons, List.cons_append, List.cons_append], hc⟩

/-- Written names end with a character of a name. -/
theorem exists_concat (h : NamesWritten written s) (plain : ∀ name ∈ written, IsPlain name) :
    ∃ init c, s = init ++ [c] ∧ isBlank c = false := by
  induction h with
  | one name =>
    have hname := (plain name List.mem_cons_self).isName
    refine ⟨_, _, (List.dropLast_concat_getLast hname.ne_nil).symm, ?_⟩
    exact hname.not_isBlank _ (List.getLast_mem hname.ne_nil)
  | more name blanks apart rest ih =>
    obtain ⟨init, c, hlast, hc⟩ := ih (List.forall_mem_cons.mp plain).2
    exact ⟨_, c, by rw [hlast, ← List.append_assoc], hc⟩

/-- Written names have no blanks around them. -/
theorem trim_eq (h : NamesWritten written s) (plain : ∀ name ∈ written, IsPlain name) :
    trim s = s := by
  obtain ⟨c, more, hcons, hc⟩ := h.exists_cons plain
  have hb : isBlank c = false := by
    rcases hc with hc | rfl
    · exact not_isBlank_of_isWordChar (isWordChar_of_isNameStart hc)
    · rfl
  obtain ⟨init, d, hconcat, hd⟩ := h.exists_concat plain
  have hstart : trimStart s = s := by rw [hcons, trimStart_cons hb]
  rw [trim, hstart, hconcat, trimEnd_append_cons hd]
  rfl

/-- Written names are no spelling of the empty string. -/
theorem notMem_emptySpellings (h : NamesWritten written s)
    (plain : ∀ name ∈ written, IsPlain name) : s ∉ emptySpellings := by
  have hnames := h.names_eq plain
  obtain ⟨c, more, rfl, hc⟩ := h.exists_cons plain
  have single : ∀ name : String, IsName name.toList → c :: more = name.toList →
      written = [name] := by
    intro name hname heq
    have hscan := names_append hname endsName_nil
    rw [List.append_nil, names_nil, ← heq, hnames, heq] at hscan
    obtain ⟨other, hwritten, hsame⟩ := List.map_eq_singleton_iff.mp hscan
    rw [hwritten, String.toList_inj.mp hsame]
  intro hmem
  simp only [emptySpellings, List.mem_cons, List.not_mem_nil, or_false] at hmem
  rcases hmem with hempty | hshort | hletter | hlong
  · cases hempty
  · have hwritten := single "e" (@IsName.word 'e' [] [] rfl (by simp) (by simp)) hshort
    exact (plain "e" (by rw [hwritten]; exact List.mem_cons_self)).ne_short rfl
  · cases hletter
    rcases hc with hc | hc
    · cases hc
    · cases hc
  · have hname : IsName "epsilon".toList :=
      @IsName.word 'e' "psilon".toList [] rfl (List.all_eq_true.mp (by decide)) (by simp)
    have hwritten := single "epsilon" hname hlong
    exact (plain "epsilon" (by rw [hwritten]; exact List.mem_cons_self)).ne_long rfl

end NamesWritten

/-- The names of an alternative do not depend on the blanks around it. -/
theorem ignoresBlanks_alternativeNames : IgnoresBlanks alternativeNames :=
  ignoresBlanks_trim.comp fun s =>
    if s ∈ emptySpellings then [""] else (names s).map String.ofList

namespace AlternativeWritten

variable {written : List String} {s : List Char}

theorem isContentChar (h : AlternativeWritten written s)
    (plain : ∀ name ∈ written, IsPlain name) : ∀ c ∈ s, isContentChar c = true := by
  cases h with
  | empty spelled left right =>
    rw [List.forall_mem_append, List.forall_mem_append]
    refine ⟨⟨isContentChar_of_isGap left, ?_⟩, isContentChar_of_isGap right⟩
    simp only [List.mem_cons, List.not_mem_nil, or_false] at spelled
    rw [← List.all_eq_true]
    rcases spelled with rfl | rfl | rfl | rfl <;> decide
  | names written left right =>
    rw [List.forall_mem_append, List.forall_mem_append]
    exact ⟨⟨isContentChar_of_isGap left, written.isContentChar plain⟩,
      isContentChar_of_isGap right⟩

/-- An alternative reads as it is written. -/
theorem alternativeNames_eq (h : AlternativeWritten written s)
    (plain : ∀ name ∈ written, IsPlain name) : alternativeNames s = withEmptyName written := by
  cases h with
  | @empty spelling before after spelled left right =>
    rw [ignoresBlanks_alternativeNames.append_right right.1,
      ignoresBlanks_alternativeNames.append_left left.1]
    simp only [List.mem_cons, List.not_mem_nil, or_false] at spelled
    rcases spelled with rfl | rfl | rfl | rfl <;> exact if_pos (by decide)
  | names written left right =>
    rw [ignoresBlanks_alternativeNames.append_right right.1,
      ignoresBlanks_alternativeNames.append_left left.1, alternativeNames, written.trim_eq plain,
      if_neg (written.notMem_emptySpellings plain), written.names_eq plain, List.map_map]
    have hid : String.ofList ∘ String.toList = id := funext fun _ => String.ofList_toList
    rw [hid, List.map_id]
    cases written <;> rfl

end AlternativeWritten

/-- The alternatives of a text, cut at the bars. -/
def cells (s : List Char) : List (List String) := (pieces '|' s).map alternativeNames

/-- The cut at the bars does not depend on the blanks around the text. -/
theorem ignoresBlanks_cells : IgnoresBlanks cells :=
  ignoresBlanks_alternativeNames.pieces rfl

theorem cells_append (s t : List Char) : cells (s ++ '|' :: t) = cells s ++ cells t := by
  rw [cells, pieces_append_cons, List.map_append]
  rfl

/-- Lines that begin with a bar, put behind a text. -/
def furtherLines (lines : List (List Char)) : List Char :=
  lines.flatMap fun line => ' ' :: '|' :: line

/-- Further lines add their alternatives. -/
theorem cells_furtherLines (s : List Char) (lines : List (List Char)) :
    cells (s ++ furtherLines lines) = cells s ++ lines.flatMap cells := by
  induction lines generalizing s with
  | nil => rw [furtherLines, List.flatMap_nil, List.flatMap_nil, List.append_nil, List.append_nil]
  | cons line lines ih =>
    have htext : s ++ furtherLines (line :: lines) =
        (s ++ [' ']) ++ '|' :: (line ++ furtherLines lines) := by
      simp [furtherLines]
    rw [htext, cells_append, ignoresBlanks_cells.concat s rfl, ih, List.flatMap_cons]

/-- How written alternatives are spread over lines: the first line goes on
with some of them, and each further line begins with a bar. -/
structure Spread (alternatives : List (List String)) (s first : List Char)
    (further : List (List Char)) : Prop where
  /-- The lines of the text that follows the start of a line. -/
  lines : ∀ start : List Char, '\n' ∉ start → (∃ c ∈ start, isBlank c = false) →
    lineTexts (start ++ s) = trim (start ++ first) :: further.map ('|' :: ·)
  /-- What stands on the first line. -/
  content : ∀ c ∈ first, isContentChar c = true ∨ c = '|'
  /-- The alternatives of all lines together. -/
  cells : cells first ++ further.flatMap cells = alternatives.map withEmptyName

namespace Spread

variable {alternatives : List (List String)} {names : List String} {s t first : List Char}
  {further : List (List Char)}

/-- One alternative stands on one line. -/
theorem one (written : AlternativeWritten names s) (plain : ∀ name ∈ names, IsPlain name) :
    Spread [names] s s [] := by
  have hcontent := written.isContentChar plain
  refine ⟨?_, fun c hc => .inl (hcontent c hc), ?_⟩
  · rintro start hstart ⟨c, hc, hb⟩
    have hline : '\n' ∉ start ++ s := by
      rw [List.mem_append, not_or]
      exact ⟨hstart, notMem_of_content hcontent rfl⟩
    exact lineTexts_of_notMem hline (trim_ne_nil (List.mem_append_left s hc) hb)
  · rw [RuleText.cells, pieces_of_notMem (notMem_of_content hcontent rfl), List.map_singleton,
      written.alternativeNames_eq plain]
    rfl

/-- An alternative before others on the same line. -/
theorem sameLine (h : Spread alternatives t first further) (written : AlternativeWritten names s)
    (plain : ∀ name ∈ names, IsPlain name) :
    Spread (names :: alternatives) (s ++ '|' :: t) (s ++ '|' :: first) further := by
  have hone := one written plain
  refine ⟨?_, ?_, ?_⟩
  · rintro start hstart ⟨c, hc, hb⟩
    have hline : '\n' ∉ start ++ s ++ ['|'] := by
      rw [List.mem_append, List.mem_append, not_or, not_or]
      exact ⟨⟨hstart, notMem_of_content (written.isContentChar plain) rfl⟩, by decide⟩
    have hlines := h.lines (start ++ s ++ ['|']) hline
      ⟨c, List.mem_append_left _ (List.mem_append_left s hc), hb⟩
    simpa using hlines
  · rw [List.forall_mem_append, List.forall_mem_cons]
    exact ⟨hone.content, .inr rfl, h.content⟩
  · have hcells := hone.cells
    rw [List.flatMap_nil, List.append_nil] at hcells
    rw [cells_append, List.append_assoc, h.cells, hcells]
    rfl

/-- An alternative before others on further lines. -/
theorem nextLine {lead : List Char} (h : Spread alternatives t first further)
    (written : AlternativeWritten names s) (plain : ∀ name ∈ names, IsPlain name)
    (blanks : IsBlanks lead) :
    Spread (names :: alternatives) (s ++ '\n' :: (lead ++ '|' :: t)) s
      (trimEnd first :: further) := by
  have hone := one written plain
  refine ⟨?_, hone.content, ?_⟩
  · intro start hstart hc
    have hlines := h.lines ['|'] (by decide) ⟨'|', List.mem_cons_self, rfl⟩
    have hbar : trim (['|'] ++ first) = '|' :: trimEnd first := by
      rw [trim, List.singleton_append, trimStart_cons rfl]
      exact trimEnd_append_cons rfl [] first
    rw [hbar] at hlines
    rw [← List.append_assoc, lineTexts_append, hone.lines start hstart hc,
      ignoresBlanks_lineTexts.append_left blanks]
    exact congrArg _ hlines
  · have hcells := hone.cells
    rw [List.flatMap_nil, List.append_nil] at hcells
    rw [List.flatMap_cons, ignoresBlanks_cells.trimEnd, h.cells, hcells]
    rfl

end Spread

/-- Written alternatives are spread over lines. -/
theorem AlternativesWritten.exists_spread {alternatives : List (List String)} {s : List Char}
    (h : AlternativesWritten alternatives s)
    (plain : ∀ names ∈ alternatives, ∀ name ∈ names, IsPlain name) :
    ∃ first further, Spread alternatives s first further := by
  induction h with
  | one written => exact ⟨_, _, .one written (plain _ List.mem_cons_self)⟩
  | sameLine written rest ih =>
    obtain ⟨hnames, hothers⟩ := List.forall_mem_cons.mp plain
    obtain ⟨first, further, h⟩ := ih hothers
    exact ⟨_, _, h.sameLine written hnames⟩
  | nextLine written blanks rest ih =>
    obtain ⟨hnames, hothers⟩ := List.forall_mem_cons.mp plain
    obtain ⟨first, further, h⟩ := ih hothers
    exact ⟨_, _, h.nextLine written hnames blanks⟩

end PredictiveParsing.RuleText
