import PredictiveParsing.Proofs.RuleText.GrammarOf
import PredictiveParsing.Proofs.RuleText.Productions

/-!
# Terminals between quotation marks

A name between quotation marks is scanned as it stands, whatever characters it
has beside the marks themselves. The scan comes last, though. Before it the
text is freed from comments and cut at line ends, at semicolons and at bars,
and none of these steps knows of quotation marks. A rule whose body is made of
quoted names is read as the rule of these names if none of them has a
character at which the text is cut, and no comment arises in it.
-/

namespace PredictiveParsing.RuleText

open Text

/-- A name between two marks. -/
def quotedText (mark : Char) (name : String) : List Char := mark :: (name.toList ++ [mark])

/-- A body of names between marks, with a blank between any two of them. -/
def quotedBody (mark : Char) (names : List String) : List Char :=
  joinWith [' '] (names.map (quotedText mark))

/-- The text of a rule for `S` with a body of names between marks. -/
def quotedRule (mark : Char) (names : List String) : String :=
  "S -> " ++ String.ofList (quotedBody mark names)

/-- The components of a grammar whose only rule has the variable `S` on its
left and terminals of these names on its right. -/
def singleRule (names : List String) : Components where
  vars := SymbolSet.ofList [.nonterminal "S"]
  terminals := SymbolSet.ofList (names.map .terminal)
  rules := SymbolTable.ofList [(.nonterminal "S", [names.map .terminal])]
  start := .nonterminal "S"
  order := some [.nonterminal "S"]

/-- A name that marks protect: it has no character at which the text is cut
before names are scanned, and it denotes neither the variable nor the empty
string. -/
structure Quotable (mark : Char) (name : String) : Prop where
  /-- The mark would end the name. -/
  mark_notMem : mark ∉ name.toList
  /-- A line end would cut the line. -/
  newline_notMem : '\n' ∉ name.toList
  /-- A semicolon would cut the section. -/
  semicolon_notMem : ';' ∉ name.toList
  /-- A bar would cut the alternative. -/
  bar_notMem : '|' ∉ name.toList
  /-- It is not the variable. -/
  ne_variable : name ≠ "S"
  /-- It is no name of the empty string. -/
  notMem_epsilonNames : name ∉ epsilonNames

instance (mark : Char) (name : String) : Decidable (Quotable mark name) :=
  decidable_of_iff (mark ∉ name.toList ∧ '\n' ∉ name.toList ∧ ';' ∉ name.toList ∧
      '|' ∉ name.toList ∧ name ≠ "S" ∧ name ∉ epsilonNames)
    ⟨fun ⟨hm, hn, hs, hb, hv, he⟩ => ⟨hm, hn, hs, hb, hv, he⟩,
      fun ⟨hm, hn, hs, hb, hv, he⟩ => ⟨hm, hn, hs, hb, hv, he⟩⟩

variable {mark : Char} {names : List String}

/-- A name before other names is followed by a blank. -/
theorem quotedBody_cons (mark : Char) (name next : String) (more : List String) :
    quotedBody mark (name :: next :: more) =
      quotedText mark name ++ ' ' :: quotedBody mark (next :: more) := by
  rw [quotedBody, List.map_cons, List.map_cons, joinWith, List.append_assoc]
  · rfl
  · exact fun e => List.cons_ne_nil _ _ e

/-- The characters of a quoted rule. -/
theorem toList_quotedRule (mark : Char) (names : List String) :
    (quotedRule mark names).toList = 'S' :: ' ' :: '-' :: '>' :: ' ' :: quotedBody mark names := by
  rw [quotedRule, String.toList_append]
  exact congrArg (['S', ' ', '-', '>', ' '] ++ ·) String.toList_ofList

/-! ### The scan of quoted names -/

/-- A text that starts with a name between marks has it as its first name. -/
theorem nextName?_quoted (hmark : mark = '\'' ∨ mark = '"') {name : String}
    (h : mark ∉ name.toList) (rest : List Char) :
    nextName? (quotedText mark name ++ rest) = some (name.toList, rest) := by
  have hinside : ∀ c ∈ name.toList, (c != mark) = true :=
    fun c hc => bne_iff_ne.mpr fun e => h (e ▸ hc)
  have hstop : ∀ c, (mark :: rest).head? = some c → (c != mark) = false := by
    rintro c ⟨⟩
    exact bne_self_eq_false mark
  have hquoted : quotedName? mark (quotedText mark name ++ rest) = some (name.toList, rest) := by
    rw [quotedText, List.cons_append, List.append_assoc, List.singleton_append, quotedName?,
      if_pos rfl, takeWhile_run hinside hstop, dropWhile_run hinside hstop]
  rw [nextName?]
  rcases hmark with rfl | rfl
  · rw [hquoted]
    rfl
  · have hother : quotedName? '\'' (quotedText '"' name ++ rest) = none := rfl
    rw [hother, hquoted]
    rfl

/-- The names between marks are scanned as they stand. -/
theorem names_quotedBody (hmark : mark = '\'' ∨ mark = '"')
    (h : ∀ name ∈ names, mark ∉ name.toList) :
    RuleText.names (quotedBody mark names) = names.map String.toList := by
  induction names with
  | nil => exact names_nil
  | cons name rest ih =>
    obtain ⟨hname, hrest⟩ := List.forall_mem_cons.mp h
    have hscan := fun tail => names_of_nextName? (nextName?_quoted hmark hname tail)
    cases rest with
    | nil =>
      have hlast := hscan []
      rw [List.append_nil, names_nil] at hlast
      exact hlast
    | cons next more =>
      rw [quotedBody_cons, hscan, names_cons rfl, ih hrest]
      rfl

/-! ### The text of a quoted rule -/

/-- A body of quoted names begins with a mark. -/
theorem exists_cons_quotedBody (mark : Char) (hne : names ≠ []) :
    ∃ inner, quotedBody mark names = mark :: inner := by
  obtain ⟨name, rest, rfl⟩ := List.exists_cons_of_ne_nil hne
  cases rest with
  | nil => exact ⟨name.toList ++ [mark], rfl⟩
  | cons next more => exact ⟨_, quotedBody_cons mark name next more⟩

/-- A body of quoted names ends with a mark. -/
theorem exists_concat_quotedBody (mark : Char) (hne : names ≠ []) :
    ∃ init, quotedBody mark names = init ++ [mark] := by
  induction names with
  | nil => exact absurd rfl hne
  | cons name rest ih =>
    cases rest with
    | nil => exact ⟨mark :: name.toList, rfl⟩
    | cons next more =>
      obtain ⟨init, hinit⟩ := ih (List.cons_ne_nil next more)
      refine ⟨quotedText mark name ++ ' ' :: init, ?_⟩
      rw [quotedBody_cons, hinit, List.append_assoc, List.cons_append]

/-- A character in a body of quoted names is a blank, a mark or in a name. -/
theorem mem_quotedBody {c : Char} (hc : c ∈ quotedBody mark names) :
    c = ' ' ∨ c = mark ∨ ∃ name ∈ names, c ∈ name.toList := by
  rcases mem_joinWith hc with hc | ⟨piece, hpiece, hc⟩
  · exact .inl (List.mem_singleton.mp hc)
  · obtain ⟨name, hname, rfl⟩ := List.mem_map.mp hpiece
    rw [quotedText, List.mem_cons, List.mem_append, List.mem_singleton] at hc
    rcases hc with hc | hc | hc
    · exact .inr (.inl hc)
    · exact .inr (.inr ⟨name, hname, hc⟩)
    · exact .inr (.inl hc)

section Reading

variable (hmark : mark = '\'' ∨ mark = '"') (hne : names ≠ [])
  (quotable : ∀ name ∈ names, Quotable mark name)

include hmark

theorem not_isBlank_mark : isBlank mark = false := by
  rcases hmark with rfl | rfl <;> rfl

include quotable in
/-- A character at which texts are cut does not stand in a body of quotable
names. -/
theorem notMem_quotedBody {c : Char} (hc : c = '\n' ∨ c = ';' ∨ c = '|') :
    c ∉ quotedBody mark names := by
  intro hmem
  rcases mem_quotedBody hmem with rfl | rfl | ⟨name, hname, hin⟩
  · rcases hc with hc | hc | hc <;> cases hc
  · rcases hmark with rfl | rfl <;> rcases hc with hc | hc | hc <;> cases hc
  · rcases hc with rfl | rfl | rfl
    · exact (quotable name hname).newline_notMem hin
    · exact (quotable name hname).semicolon_notMem hin
    · exact (quotable name hname).bar_notMem hin

include quotable in
/-- Nor does it stand in the whole rule. -/
theorem notMem_quotedRule {c : Char} (hc : c = '\n' ∨ c = ';' ∨ c = '|') :
    c ∉ (quotedRule mark names).toList := by
  have hlead : c ∉ ['S', ' ', '-', '>', ' '] := by
    rcases hc with rfl | rfl | rfl <;> decide
  rw [toList_quotedRule]
  exact fun hmem => (List.mem_append.mp hmem).elim hlead (notMem_quotedBody hmark quotable hc)

include hne

/-- A body of quoted names has no blanks at its ends. -/
theorem trim_quotedBody : trim (quotedBody mark names) = quotedBody mark names := by
  obtain ⟨inner, hinner⟩ := exists_cons_quotedBody mark hne
  obtain ⟨init, hinit⟩ := exists_concat_quotedBody mark hne
  have hstart : trimStart (quotedBody mark names) = quotedBody mark names := by
    rw [hinner, trimStart_cons (not_isBlank_mark hmark)]
  rw [trim, hstart, hinit, trimEnd_append_cons (not_isBlank_mark hmark)]
  rfl

/-- Nor has the whole rule. -/
theorem trim_quotedRule : trim (quotedRule mark names).toList = (quotedRule mark names).toList := by
  obtain ⟨init, hinit⟩ := exists_concat_quotedBody mark hne
  have hend := trimEnd_append_cons (not_isBlank_mark hmark)
    ('S' :: ' ' :: '-' :: '>' :: ' ' :: init) []
  rw [toList_quotedRule, trim, trimStart_cons rfl, hinit]
  exact hend

/-- The text of the rule is cut behind the arrow. -/
theorem splitHead?_quotedRule :
    splitHead? (quotedRule mark names).toList = some (['S'], quotedBody mark names) := by
  have hname : IsName ['S'] := @IsName.word 'S' [] [] rfl (by simp) (by simp)
  have hsplit : splitHead? (['S'] ++ [' '] ++ "->".toList ++ ' ' :: quotedBody mark names) =
      some (['S'], trimStart (' ' :: quotedBody mark names)) :=
    splitHead?_append hname isGap_space (by decide) (by rintro c ⟨⟩; decide)
  obtain ⟨inner, hinner⟩ := exists_cons_quotedBody mark hne
  have hstart : trimStart (' ' :: quotedBody mark names) = quotedBody mark names := by
    have hlead := trimStart_append_left isGap_space.1 (quotedBody mark names)
    rwa [hinner, trimStart_cons (not_isBlank_mark hmark), ← hinner] at hlead
  rw [hstart] at hsplit
  rw [toList_quotedRule]
  exact hsplit

include quotable

/-- The text of the rule describes one production, whose only alternative
has the names. -/
theorem production?_quotedRule :
    production? (quotedRule mark names).toList = some ⟨"S", [names]⟩ := by
  obtain ⟨inner, hinner⟩ := exists_cons_quotedBody mark hne
  have hspelling : quotedBody mark names ∉ emptySpellings := by
    rw [hinner]
    rcases hmark with rfl | rfl <;> simp [emptySpellings]
  have hnames : alternativeNames (quotedBody mark names) = names := by
    rw [alternativeNames, trim_quotedBody hmark hne, if_neg hspelling,
      names_quotedBody hmark fun name hname => (quotable name hname).mark_notMem, List.map_map]
    exact (List.map_congr_left fun name _ => String.ofList_toList).trans (List.map_id' names)
  rw [production?, splitHead?_quotedRule hmark hne, Option.map_some]
  dsimp only
  rw [pieces_of_notMem (notMem_quotedBody hmark quotable (.inr (.inr rfl))), List.map_singleton,
    hnames]

/-- A quoted rule without comments reads as one production. -/
theorem readProductions_quotedRule (hcomments : Commentless (quotedRule mark names).toList) :
    readProductions (quotedRule mark names) = .ok [⟨"S", [names]⟩] := by
  have hline : lineTexts (quotedRule mark names).toList = [(quotedRule mark names).toList] := by
    have hblank : trim (quotedRule mark names).toList ≠ [] := by
      rw [trim_quotedRule hmark hne, toList_quotedRule]
      exact List.cons_ne_nil _ _
    rw [lineTexts_of_notMem (notMem_quotedRule hmark quotable (.inl rfl)) hblank,
      trim_quotedRule hmark hne]
  have hgroup : groupLines none [(quotedRule mark names).toList] =
      .ok [(quotedRule mark names).toList] := by
    rw [groupLines, if_pos (by rw [splitHead?_quotedRule hmark hne]; rfl)]
    rfl
  have htexts : sectionProductions (sections ';' (dropComments (quotedRule mark names).toList)) =
      .ok [(quotedRule mark names).toList] := by
    rw [dropComments_of_commentless hcomments,
      sections_of_notMem (notMem_quotedRule hmark quotable (.inr (.inl rfl))), hline,
      sectionProductions, hgroup]
    rfl
  exact readProductions_of_sections htexts
    (List.filterMap_cons_some (production?_quotedRule hmark hne quotable)) (List.cons_ne_nil _ _)

end Reading

/-! ### The grammar of a quoted rule -/

/-- Names other than the variable are no heads. -/
theorem notMem_heads_quoted (hvariable : "S" ∉ names) {name : String} (hname : name ∈ names) :
    name ∉ heads [⟨"S", [names]⟩] := by
  intro hmem
  obtain ⟨p, hp, rfl⟩ := mem_heads.mp hmem
  rw [List.mem_singleton.mp hp] at hname
  exact hvariable hname

/-- Names other than the variable and the empty string are terminals beside
the production. -/
theorem bodyOf_quoted (hvariable : "S" ∉ names) (hepsilon : ∀ name ∈ names, name ∉ epsilonNames) :
    bodyOf [⟨"S", [names]⟩] names = names.map .terminal := by
  refine List.map_congr_left fun name hname => ?_
  rw [Grammar.symbolOfName, if_neg (notMem_heads_quoted hvariable hname),
    if_neg (hepsilon name hname)]

/-- The components of the production are those of the single rule. -/
theorem componentsOf_quoted (hvariable : "S" ∉ names)
    (hepsilon : ∀ name ∈ names, name ∉ epsilonNames) :
    componentsOf [⟨"S", [names]⟩] "S" = singleRule names := by
  have hterminals : (componentsOf [⟨"S", [names]⟩] "S").terminals =
      (singleRule names).terminals := by
    refine SymbolSet.ext fun a => ?_
    rw [mem_terminals_componentsOf, singleRule, SymbolSet.mem_ofList, List.mem_map]
    constructor
    · rintro ⟨name, rfl, ⟨p, hp, body, hbody, hname⟩, -⟩
      rw [List.mem_singleton.mp hp] at hbody
      rw [List.mem_singleton.mp hbody] at hname
      exact ⟨name, hname, rfl⟩
    · rintro ⟨name, hname, rfl⟩
      exact ⟨name, rfl, ⟨_, List.mem_cons_self, names, List.mem_cons_self, hname⟩,
        notMem_heads_quoted hvariable hname, hepsilon name hname⟩
  have hrules : (componentsOf [⟨"S", [names]⟩] "S").rules = (singleRule names).rules := by
    rw [singleRule, ← bodyOf_quoted hvariable hepsilon]
    rfl
  have hparts : componentsOf [⟨"S", [names]⟩] "S" =
      { singleRule names with
        terminals := (componentsOf [⟨"S", [names]⟩] "S").terminals
        rules := (componentsOf [⟨"S", [names]⟩] "S").rules } := rfl
  rw [hparts, hterminals, hrules]

/-- A rule of quoted names reads as the grammar that has only this rule. -/
theorem read_quotedRule (hmark : mark = '\'' ∨ mark = '"') (hne : names ≠ [])
    (quotable : ∀ name ∈ names, Quotable mark name)
    (hcomments : Commentless (quotedRule mark names).toList) :
    ∃ g, read (quotedRule mark names) none = .ok g ∧ g.toComponents = singleRule names := by
  have hvariable : "S" ∉ names := fun h => (quotable _ h).ne_variable rfl
  have hepsilon := fun name hname => (quotable name hname).notMem_epsilonNames
  have hproper : Body.Proper (names.map .terminal) := by
    refine ⟨fun h => hne (List.map_eq_nil_iff.mp h), fun h => ?_⟩
    obtain ⟨name, -, hname⟩ := List.mem_map.mp h
    cases hname
  rw [← bodyOf_quoted hvariable hepsilon] at hproper
  obtain ⟨g, hg, hcomponents⟩ := @exists_grammarOf [⟨"S", [names]⟩] (List.cons_ne_nil _ _)
    (by simp) (by simpa using hproper)
  refine ⟨g, ?_, hcomponents.trans (componentsOf_quoted hvariable hepsilon)⟩
  rw [read, readProductions_quotedRule hmark hne quotable hcomments]
  exact hg

/-- Names that are an arrow, a spelling of the empty string, the opening of a
comment, and a text with blanks and brackets. -/
def quotableNames : List String := ["->", "e", "/*", "<a [b "]

theorem read_quotedRule_quotableNames :
    quotableNames ≠ [] ∧ (∀ name ∈ quotableNames, Quotable '\'' name) ∧
      Commentless (quotedRule '\'' quotableNames).toList ∧
      ∃ g, read "S -> '->' 'e' '/*' '<a [b '" none = .ok g ∧
        g.toComponents = singleRule quotableNames := by
  have hne : quotableNames ≠ [] := List.cons_ne_nil _ _
  have quotable : ∀ name ∈ quotableNames, Quotable '\'' name := by decide +kernel
  have hcomments : Commentless (quotedRule '\'' quotableNames).toList := by decide +kernel
  have htext : quotedRule '\'' quotableNames = "S -> '->' 'e' '/*' '<a [b '" := by decide +kernel
  have hread := read_quotedRule (.inl rfl) hne quotable hcomments
  rw [htext] at hread
  exact ⟨hne, quotable, hcomments, hread⟩

/-- A bar between quotation marks cuts the alternative all the same: it
leaves two alternatives and no error. -/
theorem read_quotedRule_bar :
    (∀ name ∈ ["a|b"], name ≠ "" ∧ '\'' ∉ name.toList ∧ '"' ∉ name.toList ∧ '\n' ∉ name.toList ∧
      name ≠ "S" ∧ name.toList ∉ emptySpellings) ∧
    ∃ g, read (quotedRule '\'' ["a|b"]) none = .ok g ∧
      g.rules.entries =
        [(.nonterminal "S", [[.terminal "a"], [.terminal "b'"]])] ∧
      g.toComponents ≠ singleRule ["a|b"] := by
  refine ⟨by decide +kernel, ?_⟩
  have hread : (read (quotedRule '\'' ["a|b"]) none).toOption.map (fun g => g.rules.entries) =
      some [(.nonterminal "S", [[.terminal "a"], [.terminal "b'"]])] := by decide +kernel
  obtain ⟨g, hg, hentries⟩ := exists_ok_of_toOption hread
  refine ⟨g, hg, hentries, fun h => ?_⟩
  rw [h] at hentries
  exact absurd hentries (by decide +kernel)

end PredictiveParsing.RuleText
