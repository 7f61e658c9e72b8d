import PredictiveParsing.Proofs.RuleText.GrammarOf
import PredictiveParsing.Proofs.RuleText.Lookups

/-!
# Grammars of arbitrary texts

Nothing is asked of a text here: it may hold stray quotation marks, bars
without alternatives, empty sections, or lines that are put together and then
read as something else. If a grammar is read from it, then that grammar is
complete. Its variables are the heads of the lines that start productions,
displayed in the order of their first appearance, each of them has an
alternative, and its terminals are exactly the other names that its bodies
use.
-/

namespace PredictiveParsing.RuleText

open Text

/-- The heads of the lines that start productions, in the order of the text. -/
def lineHeads (text : String) : List String :=
  ((sections ';' (dropComments text.toList)).flatten.filterMap lineHead?).map String.ofList

/-- A grammar declares all that it uses and uses all that it declares, and its
variables are the heads in a text. -/
structure CompleteFor (text : String) (g : Grammar) : Prop where
  /-- Symbols are declared by their kind, and nonterminals are variables. -/
  closed : g.Closed
  /-- Every variable has an alternative. -/
  alternatives : ∀ a ∈ g.vars, g.rulesOf a ≠ []
  /-- The variables are displayed in the order in which they first appear
  before an arrow. -/
  order : g.order = some ((lineHeads text).eraseDups.map .nonterminal)
  /-- A body is the empty string alone or made of declared symbols. -/
  declared : ∀ a, ∀ body ∈ g.rulesOf a,
    body = epsilonBody ∨ ∀ x ∈ body, x ∈ g.vars ∨ x ∈ g.terminals
  /-- Every declared terminal occurs in a body. -/
  occurs : ∀ x ∈ g.terminals, ∃ a, ∃ body ∈ g.rulesOf a, x ∈ body
  /-- No name is one of a variable and of a terminal. -/
  disjoint : ∀ a ∈ g.vars, ∀ x ∈ g.terminals, a.name ≠ x.name

variable {productions : List Production} {start : String} {g : Grammar}

/-- The texts of productions start with the heads of the lines. -/
theorem filterMap_lineHead?_of_allProductions {blocks texts : List (List Char)}
    (h : allProductions blocks = .ok texts) :
    texts.filterMap lineHead? = (blocks.map lineTexts).flatten.filterMap lineHead? := by
  have hheads := congrArg (List.filterMap id) (map_lineHead?_of_allProductions h)
  rwa [← List.map_filterMap_some_eq_filter_map_isSome, List.filterMap_map, List.filterMap_map,
    Function.id_comp, Function.id_comp, List.filterMap_some] at hheads

/-- The heads of the productions of a text are those of its lines. -/
theorem map_head_of_readProductions {text : String} (h : readProductions text = .ok productions) :
    productions.map Production.head = lineHeads text := by
  have hhead : (fun s => (production? s).map Production.head) =
      fun s => (lineHead? s).map String.ofList := by
    funext s
    rw [production?, lineHead?, Option.map_map, Option.map_map]
    rfl
  have hsections : (pieces ';' (joinWith ['\n'] (contentLines text.toList))).map lineTexts =
      sections ';' (dropComments text.toList) := sections_lineTexts rfl _
  obtain ⟨texts, htexts, rfl, -⟩ := readProductions_eq_ok h
  rw [List.map_filterMap, hhead, ← List.map_filterMap,
    filterMap_lineHead?_of_allProductions htexts, hsections]
  rfl

/-- The variables of a grammar of productions have alternatives. -/
theorem rulesOf_ne_nil (h : g.toComponents = componentsOf productions start) {a : Symbol}
    (ha : a ∈ g.vars) : g.rulesOf a ≠ [] := by
  rw [h] at ha
  obtain ⟨p, hp, rfl⟩ := mem_vars_componentsOf.mp ha
  have hget := @get?_componentsOf productions start (.nonterminal p.head) _ |>.mpr
    ⟨p.head, mem_heads.mpr ⟨p, hp, rfl⟩, rfl, rfl⟩
  rw [← h] at hget
  have hne := g.valid.bodies_ne_nil _ _ hget
  rw [Grammar.rulesOf, hget]
  exact hne

/-- The bodies of a grammar of productions use declared symbols only. -/
theorem body_declared (h : g.toComponents = componentsOf productions start) {a : Symbol}
    {body : Body} (hb : body ∈ g.rulesOf a) :
    body = epsilonBody ∨ ∀ x ∈ body, x ∈ g.vars ∨ x ∈ g.terminals := by
  by_cases hepsilon : body = epsilonBody
  · exact .inl hepsilon
  · have hmem : body ∈ (componentsOf productions start).rulesOf a := h ▸ hb
    obtain ⟨p, hp, rfl, names, halternative, rfl⟩ := mem_rulesOf_componentsOf.mp hmem
    refine .inr fun x hx => ?_
    have hne : x ≠ .epsilon := by
      rintro rfl
      exact Grammar.epsilon_notMem hb hepsilon hx
    obtain ⟨name, hname, rfl⟩ := List.mem_map.mp hx
    rw [h]
    rw [Grammar.symbolOfName] at hne ⊢
    split
    · next hhead =>
      obtain ⟨q, hq, rfl⟩ := mem_heads.mp hhead
      exact .inl (mem_vars_componentsOf.mpr ⟨q, hq, rfl⟩)
    · next hhead =>
      rw [if_neg hhead] at hne
      split
      · next he =>
        rw [if_pos he] at hne
        exact absurd rfl hne
      · next he =>
        exact .inr (mem_terminals_componentsOf.mpr
          ⟨name, rfl, ⟨p, hp, names, halternative, hname⟩, hhead, he⟩)

/-- Every terminal of a grammar of productions occurs in one of its bodies. -/
theorem terminal_occurs (h : g.toComponents = componentsOf productions start) {x : Symbol}
    (hx : x ∈ g.terminals) : ∃ a, ∃ body ∈ g.rulesOf a, x ∈ body := by
  rw [h] at hx
  obtain ⟨name, rfl, ⟨p, hp, names, halternative, hname⟩, hhead, he⟩ :=
    mem_terminals_componentsOf.mp hx
  have hbody : bodyOf productions names ∈
      (componentsOf productions start).rulesOf (.nonterminal p.head) :=
    mem_rulesOf_componentsOf.mpr ⟨p, hp, rfl, names, halternative, rfl⟩
  rw [← h] at hbody
  refine ⟨.nonterminal p.head, _, hbody, List.mem_map.mpr ⟨name, hname, ?_⟩⟩
  rw [Grammar.symbolOfName, if_neg hhead, if_neg he]

/-- The variables of a grammar of productions differ from its terminals by
their names. -/
theorem name_ne (h : g.toComponents = componentsOf productions start) {a x : Symbol}
    (ha : a ∈ g.vars) (hx : x ∈ g.terminals) : a.name ≠ x.name := by
  rw [h] at ha hx
  obtain ⟨p, hp, rfl⟩ := mem_vars_componentsOf.mp ha
  obtain ⟨name, rfl, -, hhead, -⟩ := mem_terminals_componentsOf.mp hx
  rintro rfl
  exact hhead (mem_heads.mpr ⟨p, hp, rfl⟩)

/-- Reading a text, with any start symbol or none, finds what it looks up, and
a grammar that is read is complete for the text. -/
theorem read_completeFor (text : String) (start : Option String) :
    ReadingLookups text ∧ ∀ g, read text start = .ok g → CompleteFor text g := by
  refine ⟨readingLookups text, fun g h => ?_⟩
  rw [read] at h
  obtain ⟨productions, hread, hgrammar⟩ := exists_ok_of_bind h
  have hg := grammarOf_eq_ok hgrammar
  refine ⟨closed_of_grammarOf hgrammar, fun a ha => rulesOf_ne_nil hg ha, ?_,
    fun a body hb => body_declared hg hb, fun x hx => terminal_occurs hg hx,
    fun a ha x hx => name_ne hg ha hx⟩
  rw [hg, ← map_head_of_readProductions hread]
  rfl

/-- A text with a comment, a quotation mark without its partner, an empty
section, and a line that continues a production with a head and an arrow in
it. -/
def unrulyText : String := "E -> T \"plus E // sums\n  | T;;\nT ->\n  x 'a b' : E | | E"

/-- The unruly text is read nevertheless. -/
theorem read_completeFor_unrulyText : ∃ g, read unrulyText none = .ok g ∧
    CompleteFor unrulyText g ∧ g.order = some [.nonterminal "E", .nonterminal "T"] := by
  have hread : (read unrulyText none).toOption.map (fun g => g.order) =
      some (some [.nonterminal "E", .nonterminal "T"]) := by decide +kernel
  obtain ⟨g, hg, horder⟩ := exists_ok_of_toOption hread
  exact ⟨g, hg, (read_completeFor unrulyText none).2 g hg, horder⟩

end PredictiveParsing.RuleText
