import PredictiveParsing.Proofs.RuleText.GrammarOf
import PredictiveParsing.Proofs.RuleText.Productions

/-!
# Reading undoes writing

Productions in plain names describe one grammar: the heads are its variables
in the order of their first appearance, a head that is repeated adds its
alternatives to the earlier ones, all other names are terminals, and the
first head is the start symbol. Every text in which the productions are
written reads as this grammar, whatever the layout, the arrows and the
spellings of the empty string.
-/

namespace PredictiveParsing

namespace RuleText

open Text

/-- The symbol that a name denotes beside productions: a variable if it is a
head, and else a terminal. -/
def symbolBeside (productions : List Production) (name : String) : Symbol :=
  if name ∈ productions.map Production.head then .nonterminal name else .terminal name

/-- The body that an alternative denotes beside productions; one without
names denotes the empty string. -/
def bodyBeside (productions : List Production) : List String → Body
  | [] => epsilonBody
  | name :: names => (name :: names).map (symbolBeside productions)

/-- A grammar is the one that productions describe. -/
structure Describes (productions : List Production) (g : Grammar) : Prop where
  /-- The variables are the heads. -/
  vars : ∀ a, a ∈ g.vars ↔ ∃ p ∈ productions, a = .nonterminal p.head
  /-- They are displayed in the order of their first appearance. -/
  order : g.order = some ((productions.map Production.head).eraseDups.map .nonterminal)
  /-- The rule table lists them in this order too. -/
  keys : g.rules.keys = (productions.map Production.head).eraseDups.map .nonterminal
  /-- The alternatives of a variable are those of its productions in their
  order. -/
  alternatives : ∀ name, g.rulesOf (.nonterminal name) =
    ((productions.filter fun p => p.head == name).flatMap Production.alternatives).map
      (bodyBeside productions)
  /-- The terminals are the other names of the alternatives. -/
  terminals : ∀ a, a ∈ g.terminals ↔ ∃ name, a = .terminal name ∧
    (∃ p ∈ productions, ∃ names ∈ p.alternatives, name ∈ names) ∧
      ∀ p ∈ productions, p.head ≠ name
  /-- The start symbol is the first head. -/
  start : ∀ p rest, productions = p :: rest → g.start = .nonterminal p.head

/-- A plain name is none of the names of the empty string. -/
theorem IsPlain.notMem_epsilonNames {name : String} (h : IsPlain name) : name ∉ epsilonNames := by
  intro hmem
  simp only [epsilonNames, List.mem_cons, List.not_mem_nil, or_false] at hmem
  obtain ⟨c, more, hcons, hc⟩ := h.isName.exists_cons
  rcases hmem with rfl | rfl | rfl
  · cases hcons
  · exact h.ne_long rfl
  · cases hcons
    rcases hc with hc | hc <;> cases hc

variable {productions : List Production}

/-- The heads do not depend on how the empty string is named. -/
theorem heads_withEmptyNames (productions : List Production) :
    heads (productions.map Production.withEmptyNames) =
      (productions.map Production.head).eraseDups := by
  rw [heads, List.map_map]
  rfl

theorem mem_heads_withEmptyNames {name : String} :
    name ∈ heads (productions.map Production.withEmptyNames) ↔
      ∃ p ∈ productions, p.head = name := by
  rw [heads_withEmptyNames, List.mem_eraseDups, List.mem_map]

theorem headD_heads (p : Production) (rest : List Production) :
    (heads ((p :: rest).map Production.withEmptyNames)).headD "" = p.head := by
  rw [heads_withEmptyNames, List.map_cons, List.eraseDups_cons]
  rfl

/-- The alternatives of a head are as they are written, but for the name of
the empty string. -/
theorem alternativesOf_withEmptyNames (productions : List Production) (name : String) :
    alternativesOf (productions.map Production.withEmptyNames) name =
      (alternativesOf productions name).map withEmptyName := by
  induction productions with
  | nil => rfl
  | cons p rest ih =>
    have hhead : p.withEmptyNames.head = p.head := rfl
    rw [alternativesOf] at ih
    rw [alternativesOf, alternativesOf, List.map_cons]
    by_cases h : p.head = name
    · rw [List.filter_cons_of_pos (by simpa [hhead] using h),
        List.filter_cons_of_pos (by simpa using h), List.flatMap_cons, List.flatMap_cons,
        List.map_append, ih]
      rfl
    · rw [List.filter_cons_of_neg (by simpa [hhead] using h),
        List.filter_cons_of_neg (by simpa using h), ih]
      rfl

/-- A plain alternative denotes its body. -/
theorem bodyOf_withEmptyName (plain : ∀ p ∈ productions, p.Plain) {names : List String}
    (hnames : ∀ name ∈ names, IsPlain name) :
    bodyOf (productions.map Production.withEmptyNames) (withEmptyName names) =
      bodyBeside productions names := by
  rw [bodyOf]
  cases names with
  | nil =>
    have hempty : "" ∉ heads (productions.map Production.withEmptyNames) := by
      rw [mem_heads_withEmptyNames]
      rintro ⟨p, hp, hhead⟩
      exact (plain p hp).head.isName.ne_nil (by rw [hhead]; rfl)
    rw [withEmptyName, List.map_singleton, Grammar.symbolOfName, if_neg hempty]
    rfl
  | cons name names =>
    refine List.map_congr_left fun other hother => ?_
    have hmem : other ∈ productions.map Production.head ↔
        other ∈ heads (productions.map Production.withEmptyNames) := by
      rw [mem_heads_withEmptyNames, List.mem_map]
    rw [Grammar.symbolOfName, symbolBeside]
    by_cases h : other ∈ productions.map Production.head
    · rw [if_pos h, if_pos (hmem.mp h)]
    · rw [if_neg h, if_neg (fun e => h (hmem.mpr e)),
        if_neg (hnames other hother).notMem_epsilonNames]

/-- The body of a plain alternative is proper. -/
theorem proper_bodyBeside (productions : List Production) (names : List String) :
    Body.Proper (bodyBeside productions names) := by
  cases names with
  | nil => exact proper_epsilonBody
  | cons name names =>
    refine ⟨List.cons_ne_nil _ _, fun hmem => ?_⟩
    obtain ⟨other, -, hother⟩ := List.mem_map.mp hmem
    rw [symbolBeside] at hother
    split at hother <;> cases hother

/-- The components that productions give when they are read. -/
def describedComponents (productions : List Production) : Components :=
  let read := productions.map Production.withEmptyNames
  componentsOf read ((heads read).headD "")

/-- The alternatives of a name are its bodies. -/
theorem rulesOf_describedComponents (plain : ∀ p ∈ productions, p.Plain) (name : String) :
    (describedComponents productions).rulesOf (.nonterminal name) =
      (alternativesOf productions name).map (bodyBeside productions) := by
  rw [describedComponents, rulesOf_componentsOf, alternativesOf_withEmptyNames, List.map_map]
  refine List.map_congr_left fun names hnames => ?_
  obtain ⟨p, hp, -, halternative⟩ := mem_alternativesOf.mp hnames
  exact bodyOf_withEmptyName plain ((plain p hp).names names halternative)

theorem vars_describedComponents {a : Symbol} :
    a ∈ (describedComponents productions).vars ↔ ∃ p ∈ productions, a = .nonterminal p.head := by
  rw [describedComponents, mem_vars_componentsOf]
  simp only [List.mem_map, exists_exists_and_eq_and]
  rfl

theorem order_describedComponents (productions : List Production) :
    (describedComponents productions).order =
      some ((productions.map Production.head).eraseDups.map .nonterminal) := by
  rw [← heads_withEmptyNames]
  rfl

/-- The first head is the start symbol. -/
theorem start_describedComponents (p : Production) (rest : List Production) :
    (describedComponents (p :: rest)).start = .nonterminal p.head := by
  rw [describedComponents, headD_heads]
  rfl

/-- Plain productions, of which there is one, have a grammar. -/
theorem exists_grammarOf_withEmptyNames (plain : ∀ p ∈ productions, p.Plain)
    (hne : productions ≠ []) :
    ∃ g, grammarOf (productions.map Production.withEmptyNames) none = .ok g ∧
      g.toComponents = describedComponents productions := by
  refine exists_grammarOf (fun h => hne (List.map_eq_nil_iff.mp h)) ?_ ?_
  · intro q hq
    obtain ⟨p, hp, rfl⟩ := List.mem_map.mp hq
    exact fun h => (plain p hp).ne_nil (List.map_eq_nil_iff.mp h)
  · intro q hq names hnames
    obtain ⟨p, hp, rfl⟩ := List.mem_map.mp hq
    obtain ⟨written, hwritten, rfl⟩ := List.mem_map.mp hnames
    rw [bodyOf_withEmptyName plain ((plain p hp).names written hwritten)]
    exact proper_bodyBeside productions written

/-- The name of the empty string apart, the names that are read are those
that are written. -/
theorem exists_names_iff {name : String} (h : name ∉ epsilonNames) :
    (∃ p ∈ productions.map Production.withEmptyNames, ∃ names ∈ p.alternatives, name ∈ names) ↔
      ∃ p ∈ productions, ∃ names ∈ p.alternatives, name ∈ names := by
  have hread : ∀ names : List String, name ∈ withEmptyName names ↔ name ∈ names := by
    intro names
    cases names with
    | nil =>
      have hempty : name ≠ "" := by
        rintro rfl
        exact h List.mem_cons_self
      simp [withEmptyName, hempty]
    | cons first others => rfl
  simp [Production.withEmptyNames, hread]

/-- The declared terminals are the names that are no heads. -/
theorem terminals_describedComponents (plain : ∀ p ∈ productions, p.Plain) {a : Symbol} :
    a ∈ (describedComponents productions).terminals ↔ ∃ name, a = .terminal name ∧
      (∃ p ∈ productions, ∃ names ∈ p.alternatives, name ∈ names) ∧
        ∀ p ∈ productions, p.head ≠ name := by
  rw [describedComponents, mem_terminals_componentsOf]
  constructor
  · rintro ⟨name, rfl, hnames, hheads, hepsilon⟩
    refine ⟨name, rfl, (exists_names_iff hepsilon).mp hnames, fun p hp hhead => ?_⟩
    exact hheads (mem_heads_withEmptyNames.mpr ⟨p, hp, hhead⟩)
  · rintro ⟨name, rfl, hnames, hheads⟩
    obtain ⟨p, hp, names, halternative, hname⟩ := id hnames
    have hepsilon := ((plain p hp).names names halternative name hname).notMem_epsilonNames
    refine ⟨name, rfl, (exists_names_iff hepsilon).mpr hnames, fun hmem => ?_, hepsilon⟩
    obtain ⟨q, hq, hhead⟩ := mem_heads_withEmptyNames.mp hmem
    exact hheads q hq hhead

/-- A grammar with these components is the one that the productions describe. -/
theorem describes_of_components (plain : ∀ p ∈ productions, p.Plain) {g : Grammar}
    (h : g.toComponents = describedComponents productions) : Describes productions g := by
  refine ⟨?_, ?_, ?_, ?_, ?_, ?_⟩
  · intro a
    rw [h]
    exact vars_describedComponents
  · rw [h]
    exact order_describedComponents productions
  · rw [h, describedComponents, keys_componentsOf, heads_withEmptyNames]
  · intro name
    have hrules := rulesOf_describedComponents plain name
    rw [← h] at hrules
    exact hrules
  · intro a
    rw [h]
    exact terminals_describedComponents plain
  · rintro p rest rfl
    rw [h]
    exact start_describedComponents p rest

/-- Productions in plain names can be written, and every text in which they
are written reads as the one grammar that they describe. -/
theorem read_of_written (hne : productions ≠ []) (plain : ∀ p ∈ productions, p.Plain) :
    ∃ g, Describes productions g ∧
      (∃ text : String, TextWritten productions text.toList) ∧
      ∀ text : String, TextWritten productions text.toList → read text none = .ok g := by
  obtain ⟨g, hg, hcomponents⟩ := exists_grammarOf_withEmptyNames plain hne
  refine ⟨g, describes_of_components plain hcomponents, ?_, fun text written => ?_⟩
  · obtain ⟨s, hs⟩ := exists_textWritten fun p hp => (plain p hp).ne_nil
    exact ⟨String.ofList s, by rwa [String.toList_ofList]⟩
  · rw [read, readProductions_of_written written plain hne]
    exact hg

/-- Whether a text is a word without apostrophes. -/
def isWord : List Char → Bool
  | c :: more => isNameStart c && more.all isWordChar
  | [] => false

theorem isName_of_isWord {s : List Char} (h : isWord s = true) : IsName s := by
  cases s with
  | nil => cases h
  | cons c more =>
    rw [isWord, Bool.and_eq_true, List.all_eq_true] at h
    have hword := @IsName.word c more [] h.1 h.2 fun _ hd => by cases hd
    rwa [List.append_nil] at hword

/-- Sums that are written by two productions of one head. -/
def sumProductions : List Production :=
  [⟨"E", [["x"], ["E", "plus", "x"]]⟩, ⟨"E", [[]]⟩]

/-- Sums in two layouts: on one line each with the empty string spelled out,
and over several lines, with other arrows, a semicolon and nothing for the
empty string. -/
theorem read_sumProductions : sumProductions ≠ [] ∧ (∀ p ∈ sumProductions, p.Plain) ∧
    ∃ g, Describes sumProductions g ∧
      read "E -> x | E plus x\nE = e" none = .ok g ∧
      read "\nE::=x\n\n  |E plus x ;E :" none = .ok g := by
  have hne : sumProductions ≠ [] := List.cons_ne_nil _ _
  have hx : IsPlain "x" := ⟨isName_of_isWord rfl, by decide, by decide⟩
  have hplus : IsPlain "plus" := ⟨isName_of_isWord rfl, by decide, by decide⟩
  have hE : IsPlain "E" := ⟨isName_of_isWord rfl, by decide, by decide⟩
  have plain : ∀ p ∈ sumProductions, p.Plain := by
    simp only [sumProductions, List.forall_mem_cons]
    refine ⟨⟨hE, List.cons_ne_nil _ _, ?_⟩, ⟨hE, List.cons_ne_nil _ _, ?_⟩, List.forall_mem_nil _⟩
    · simp only [List.forall_mem_cons]
      exact ⟨⟨hx, List.forall_mem_nil _⟩, ⟨hE, hplus, hx, List.forall_mem_nil _⟩,
        List.forall_mem_nil _⟩
    · simp
  have sum : NamesWritten ["E", "plus", "x"] "E plus x".toList :=
    .more "E" isGap_space (List.cons_ne_nil _ _)
      (.more "plus" isGap_space (List.cons_ne_nil _ _) (.one "x"))
  have oneLine : TextWritten sumProductions
      ("E -> x | E plus x".toList ++ '\n' :: "E = e".toList) := by
    have bodies : AlternativesWritten [["x"], ["E", "plus", "x"]] " x | E plus x".toList :=
      .sameLine (.names (.one "x") isGap_space isGap_space)
        (.one (.names sum isGap_space isGap_nil))
    have first : ProductionWritten ⟨"E", [["x"], ["E", "plus", "x"]]⟩ "E -> x | E plus x".toList :=
      @ProductionWritten.intro ⟨"E", _⟩ [] [' '] _ "->" isGap_nil isGap_space (by decide) bodies
    have empty : AlternativesWritten [[]] " e".toList :=
      .one (@AlternativeWritten.empty "e" [' '] [] (by decide) isGap_space isGap_nil)
    have second : ProductionWritten ⟨"E", [[]]⟩ "E = e".toList :=
      @ProductionWritten.intro ⟨"E", _⟩ [] [' '] _ "=" isGap_nil isGap_space (by decide) empty
    exact .more first (.inl rfl) (.last second)
  have manyLines : TextWritten sumProductions
      ('\n' :: ("E::=x\n\n  |E plus x ".toList ++ ';' :: "E :".toList)) := by
    have lead : IsBlanks "\n  ".toList := by simp [IsBlanks, isBlank]
    have bodies : AlternativesWritten [["x"], ["E", "plus", "x"]] "x\n\n  |E plus x ".toList :=
      .nextLine (.names (.one "x") isGap_nil isGap_nil) lead
        (.one (.names sum isGap_nil isGap_space))
    have first : ProductionWritten ⟨"E", [["x"], ["E", "plus", "x"]]⟩
        "E::=x\n\n  |E plus x ".toList :=
      @ProductionWritten.intro ⟨"E", _⟩ [] [] _ "::=" isGap_nil isGap_nil (by decide) bodies
    have empty : AlternativesWritten [[]] [] :=
      .one (@AlternativeWritten.empty "" [] [] (by decide) isGap_nil isGap_nil)
    have second : ProductionWritten ⟨"E", [[]]⟩ "E :".toList :=
      @ProductionWritten.intro ⟨"E", _⟩ [] [' '] _ ":" isGap_nil isGap_space (by decide) empty
    exact .skip isGap_nil (.inl rfl) (.more first (.inr rfl) (.last second))
  obtain ⟨g, hg, -, hread⟩ := read_of_written hne plain
  exact ⟨hne, plain, g, hg, hread _ oneLine, hread _ manyLines⟩

end RuleText

end PredictiveParsing
