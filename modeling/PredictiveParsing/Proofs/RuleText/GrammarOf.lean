import PredictiveParsing.Proofs.Grammar.Names
import PredictiveParsing.Proofs.Grammar.Validity
import PredictiveParsing.RuleText.Production

/-!
# The grammar of productions

Whatever productions were read, their grammar is made in the same way: the
heads are its variables, each has the alternatives of all its productions,
and a name in an alternative is a variable, the empty string or a terminal.
Here the components of that grammar are looked up, for productions of any
names.
-/

namespace PredictiveParsing.RuleText

/-- The components that productions give with a start symbol. -/
def componentsOf (productions : List Production) (start : String) : Components :=
  Grammar.componentsOfNames (heads productions) (terminalNames productions)
    ((heads productions).map fun head => (head, alternativesOf productions head)) start
    (some (heads productions))

/-- The body that an alternative is read as. -/
def bodyOf (productions : List Production) (names : List String) : Body :=
  names.map (Grammar.symbolOfName (heads productions))

variable {productions : List Production} {start name : String}

theorem mem_heads : name ∈ heads productions ↔ ∃ p ∈ productions, p.head = name := by
  rw [heads, List.mem_eraseDups, List.mem_map]

theorem mem_alternativesOf {names : List String} :
    names ∈ alternativesOf productions name ↔
      ∃ p ∈ productions, p.head = name ∧ names ∈ p.alternatives := by
  simp [alternativesOf, and_assoc]

/-- The variables that the heads denote differ. -/
theorem nodup_heads (productions : List Production) :
    ((heads productions).map Symbol.nonterminal).Nodup :=
  List.Pairwise.map _ (fun _ _ hne h => hne (Symbol.nonterminal.inj h)) (nodup_eraseDups _)

/-- The rule table lists the heads with the bodies of their alternatives. -/
theorem entries_componentsOf (productions : List Production) (start : String) :
    (componentsOf productions start).rules.entries = (heads productions).map fun name =>
      (.nonterminal name, (alternativesOf productions name).map (bodyOf productions)) := by
  rw [componentsOf, Grammar.componentsOfNames]
  dsimp only
  rw [List.map_map, SymbolTable.entries_ofList]
  · rfl
  · rw [List.map_map]
    exact nodup_heads productions

/-- The keys of the rule table are the heads. -/
theorem keys_componentsOf (productions : List Production) (start : String) :
    (componentsOf productions start).rules.keys = (heads productions).map .nonterminal := by
  rw [SymbolTable.keys, entries_componentsOf, List.map_map]
  rfl

/-- A symbol with an entry is a head, and its bodies are those of its
alternatives. -/
theorem get?_componentsOf {a : Symbol} {bodies : List Body} :
    (componentsOf productions start).rules.get? a = some bodies ↔
      ∃ name ∈ heads productions, a = .nonterminal name ∧
        bodies = (alternativesOf productions name).map (bodyOf productions) := by
  rw [← SymbolTable.mem_entries_iff, entries_componentsOf, List.mem_map]
  simp only [Prod.mk.injEq, eq_comm]

/-- The alternatives of a name are read as its bodies; a name that is no head
has none. -/
theorem rulesOf_componentsOf (productions : List Production) (start name : String) :
    (componentsOf productions start).rulesOf (.nonterminal name) =
      (alternativesOf productions name).map (bodyOf productions) := by
  rw [Components.rulesOf]
  cases hget : (componentsOf productions start).rules.get? (.nonterminal name) with
  | none =>
    have hnone : alternativesOf productions name = [] := by
      refine List.eq_nil_iff_forall_not_mem.mpr fun names hmem => ?_
      obtain ⟨p, hp, hhead, -⟩ := mem_alternativesOf.mp hmem
      have hentry := @get?_componentsOf productions start (.nonterminal name) _ |>.mpr
        ⟨name, mem_heads.mpr ⟨p, hp, hhead⟩, rfl, rfl⟩
      rw [hget] at hentry
      cases hentry
    rw [hnone]
    rfl
  | some bodies =>
    obtain ⟨other, -, hname, hbodies⟩ := get?_componentsOf.mp hget
    rw [Symbol.nonterminal.inj hname, hbodies]
    rfl

/-- Only heads have bodies, and each is that of an alternative. -/
theorem mem_rulesOf_componentsOf {a : Symbol} {body : Body} :
    body ∈ (componentsOf productions start).rulesOf a ↔
      ∃ p ∈ productions, a = .nonterminal p.head ∧
        ∃ names ∈ p.alternatives, body = bodyOf productions names := by
  constructor
  · intro h
    obtain ⟨bodies, hget, hmem⟩ := Components.mem_rulesOf_iff.mp h
    obtain ⟨name, -, rfl, rfl⟩ := get?_componentsOf.mp hget
    obtain ⟨names, hnames, rfl⟩ := List.mem_map.mp hmem
    obtain ⟨p, hp, rfl, halternative⟩ := mem_alternativesOf.mp hnames
    exact ⟨p, hp, rfl, names, halternative, rfl⟩
  · rintro ⟨p, hp, rfl, names, halternative, rfl⟩
    rw [rulesOf_componentsOf]
    exact List.mem_map_of_mem (mem_alternativesOf.mpr ⟨p, hp, rfl, halternative⟩)

/-- The variables are the heads. -/
theorem mem_vars_componentsOf {a : Symbol} :
    a ∈ (componentsOf productions start).vars ↔ ∃ p ∈ productions, a = .nonterminal p.head := by
  rw [componentsOf, Grammar.componentsOfNames]
  dsimp only
  rw [SymbolSet.mem_ofList, List.mem_map]
  constructor
  · rintro ⟨name, hname, rfl⟩
    obtain ⟨p, hp, rfl⟩ := mem_heads.mp hname
    exact ⟨p, hp, rfl⟩
  · rintro ⟨p, hp, rfl⟩
    exact ⟨p.head, mem_heads.mpr ⟨p, hp, rfl⟩, rfl⟩

/-- The terminals are the names in alternatives that are neither heads nor
the empty string. -/
theorem mem_terminals_componentsOf {a : Symbol} :
    a ∈ (componentsOf productions start).terminals ↔ ∃ name, a = .terminal name ∧
      (∃ p ∈ productions, ∃ names ∈ p.alternatives, name ∈ names) ∧
        name ∉ heads productions ∧ name ∉ epsilonNames := by
  rw [componentsOf, Grammar.componentsOfNames]
  dsimp only
  rw [SymbolSet.mem_ofList, List.mem_map]
  simp only [terminalNames, List.mem_filter, List.mem_flatMap, List.mem_flatten,
    decide_eq_true_eq]
  constructor
  · rintro ⟨name, ⟨⟨hnames, hother⟩, -⟩, rfl⟩
    exact ⟨name, rfl, hnames, hother⟩
  · rintro ⟨name, rfl, hnames, hother⟩
    exact ⟨name, ⟨⟨hnames, hother⟩, hother.2⟩, rfl⟩

/-- A grammar of productions has their components, with a start symbol among
the heads. -/
theorem grammarOf_eq_ok {start : Option String} {g : Grammar}
    (h : grammarOf productions start = .ok g) :
    g.toComponents = componentsOf productions (start.getD ((heads productions).headD "")) := by
  rw [grammarOf] at h
  split at h
  · exact Components.check_eq_ok h
  · cases h

/-- Productions with alternatives pass the check of a grammar if their bodies
do and the start symbol is a head. -/
theorem valid_componentsOf (hstart : start ∈ heads productions)
    (halternatives : ∀ p ∈ productions, p.alternatives ≠ [])
    (hproper : ∀ p ∈ productions, ∀ names ∈ p.alternatives,
      Body.Proper (bodyOf productions names)) : (componentsOf productions start).Valid where
  start_mem := by
    obtain ⟨p, hp, rfl⟩ := mem_heads.mp hstart
    exact mem_vars_componentsOf.mpr ⟨p, hp, rfl⟩
  key_mem := by
    intro a bodies hget
    obtain ⟨name, hname, rfl, -⟩ := get?_componentsOf.mp hget
    obtain ⟨p, hp, rfl⟩ := mem_heads.mp hname
    exact mem_vars_componentsOf.mpr ⟨p, hp, rfl⟩
  bodies_ne_nil := by
    intro a bodies hget
    obtain ⟨name, hname, -, rfl⟩ := get?_componentsOf.mp hget
    obtain ⟨p, hp, hhead⟩ := mem_heads.mp hname
    obtain ⟨names, others, hnames⟩ := List.exists_cons_of_ne_nil (halternatives p hp)
    have hmem := mem_alternativesOf.mpr ⟨p, hp, hhead, hnames ▸ List.mem_cons_self⟩
    exact List.ne_nil_of_mem (List.mem_map_of_mem hmem)
  proper := by
    intro a body hbody
    obtain ⟨p, hp, -, names, hnames, rfl⟩ := mem_rulesOf_componentsOf.mp hbody
    exact hproper p hp names hnames
  order_lists := by
    rintro order ⟨⟩
    refine Components.listsVariables_iff.mpr ⟨nodup_heads productions, fun a => ?_⟩
    rw [mem_vars_componentsOf, List.mem_map]
    constructor
    · rintro ⟨name, hname, rfl⟩
      obtain ⟨p, hp, rfl⟩ := mem_heads.mp hname
      exact ⟨p, hp, rfl⟩
    · rintro ⟨p, hp, rfl⟩
      exact ⟨p.head, mem_heads.mpr ⟨p, hp, rfl⟩, rfl⟩

/-- The first head of productions is one of them. -/
theorem headD_mem_heads (hne : productions ≠ []) :
    (heads productions).headD "" ∈ heads productions := by
  obtain ⟨p, rest, rfl⟩ := List.exists_cons_of_ne_nil hne
  rw [heads, List.map_cons, List.eraseDups_cons]
  exact List.mem_cons_self

/-- Productions with alternatives and proper bodies have a grammar. -/
theorem exists_grammarOf (hne : productions ≠ [])
    (halternatives : ∀ p ∈ productions, p.alternatives ≠ [])
    (hproper : ∀ p ∈ productions, ∀ names ∈ p.alternatives,
      Body.Proper (bodyOf productions names)) :
    ∃ g, grammarOf productions none = .ok g ∧
      g.toComponents = componentsOf productions ((heads productions).headD "") := by
  have hstart := headD_mem_heads hne
  obtain ⟨g, hg⟩ := Components.check_isOk_iff.mpr
    (Components.faults_eq_nil_iff.mpr (valid_componentsOf hstart halternatives hproper))
  exact ⟨g, (if_pos hstart).trans hg, Components.check_eq_ok hg⟩

/-- A grammar of productions is closed. -/
theorem closed_of_grammarOf {start : Option String} {g : Grammar}
    (h : grammarOf productions start = .ok g) : g.Closed := by
  rw [grammarOf] at h
  split at h
  · exact Grammar.closed_ofNames h
  · cases h

end PredictiveParsing.RuleText
