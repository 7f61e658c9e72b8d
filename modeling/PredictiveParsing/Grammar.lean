import PredictiveParsing.Grammar.Fault
import PredictiveParsing.SymbolTable
import PredictiveParsing.Text.Alphabetical

/-!
# Context-free grammars

A grammar has variables, terminals, a table of alternatives, a start symbol
and, if wanted, an order in which the variables are displayed. Its
components are put together first and checked then: a `Grammar` is a list
of components together with the proof that the check finds no fault.

Not every symbol of a body has to be declared. A nonterminal that is no
variable and a terminal that is not listed are allowed; `Closed` singles
out the grammars where symbols are declared by their kind and every
nonterminal of a body is a variable.

Rules are numbered from one on through the variables in display order. The
display order and the order of the rule table show in numbers and listings
only.
-/

namespace PredictiveParsing

/-- The alternatives of the variables, in the order of the table. -/
abbrev RuleTable := SymbolTable (List Body)

/-- The components of a grammar before they are checked. -/
structure Components where
  /-- The symbols that rules expand. -/
  vars : SymbolSet
  /-- The declared terminals. -/
  terminals : SymbolSet
  /-- The alternatives of each variable that has some. -/
  rules : RuleTable
  /-- The symbol from which sentences are derived. -/
  start : Symbol
  /-- The display order, if one is given. -/
  order : Option (List Symbol) := none

namespace Components

/-- What is wrong with one body of a key. -/
def bodyFaults (key : Symbol) (body : Body) : List GrammarFault :=
  if body = [] then [.emptyBody key]
  else if 1 < body.length ∧ .epsilon ∈ body then [.epsilonAmongOthers key body]
  else []

/-- What is wrong with one entry of the rule table. -/
def entryFaults (vars : SymbolSet) (key : Symbol) (bodies : List Body) : List GrammarFault :=
  if key ∉ vars then [.rulesWithoutVariable key]
  else if bodies = [] then [.noAlternatives key]
  else bodies.flatMap (bodyFaults key)

/-- Whether a list names every variable exactly once. -/
def listsVariables (vars : SymbolSet) (order : List Symbol) : Bool :=
  order.length == vars.size && SymbolSet.ofList order == vars

/-- What is wrong with the display order. -/
def orderFaults (vars : SymbolSet) : Option (List Symbol) → List GrammarFault
  | none => []
  | some order => if listsVariables vars order then [] else [.orderNotPermutation]

/-- Everything that is wrong with the components: the start symbol first,
then the entries of the rule table in their order, the display order last. -/
def faults (c : Components) : List GrammarFault :=
  (if c.start ∈ c.vars then [] else [.startNotVariable c.start]) ++
    c.rules.entries.flatMap (fun entry => entryFaults c.vars entry.1 entry.2) ++
    orderFaults c.vars c.order

end Components

/-- A context-free grammar. -/
structure Grammar extends Components where
  /-- The check of the components finds nothing. -/
  sound : toComponents.faults = []

/-- The grammar of some components, or the first fault of them. -/
def Components.check (c : Components) : Except GrammarFault Grammar :=
  match h : c.faults with
  | [] => .ok ⟨c, h⟩
  | fault :: _ => .error fault

namespace Grammar

/-- The alternatives of a symbol; a symbol without an entry has none. -/
def rulesOf (g : Grammar) (a : Symbol) : List Body := (g.rules.get? a).getD []

/-- Whether a symbol has the body that derives the empty string. -/
def hasEpsilonRule (g : Grammar) (a : Symbol) : Bool := Body.among epsilonBody (g.rulesOf a)

/-- The order of the variables in numbers and listings: the given one, or
else the keys of the rule table followed by the variables without rules in
alphabetical order. -/
def displayOrder (g : Grammar) : List Symbol :=
  match g.order with
  | some order => order
  | none =>
    g.rules.keys.filter (fun a => decide (a ∈ g.vars)) ++
      Text.sortBy Symbol.name (g.vars.members.filter fun a => !g.rules.contains a)

/-- The names that variables bear. -/
def usedNames (g : Grammar) : List String := g.vars.members.map Symbol.name

/-- The names of the variables, each once, in alphabetical order. -/
def variableNames (g : Grammar) : List String := Text.sortBy id g.usedNames.eraseDups

/-- The first rule numbers of listed variables, counted from a number on. -/
def firstNumbersFrom (g : Grammar) : Nat → List Symbol → List (Symbol × Nat)
  | _, [] => []
  | n, a :: rest => (a, n) :: firstNumbersFrom g (n + (g.rulesOf a).length) rest

/-- Each variable with the number of its first rule, in display order. -/
def firstNumbers (g : Grammar) : List (Symbol × Nat) := g.firstNumbersFrom 1 g.displayOrder

/-- The number of the first rule of a variable. -/
def firstNumber? (g : Grammar) (a : Symbol) : Option Nat := SymbolTable.find g.firstNumbers a

/-- The number of the alternative of a variable at an offset from its first
one. An offset without an alternative is counted on all the same. -/
def ruleNumber (g : Grammar) (a : Symbol) (offset : Int) : Except MissingEntry Int :=
  match g.firstNumber? a with
  | some n => .ok (n + offset)
  | none => .error ⟨a⟩

/-- The alternatives of a variable with numbers counted from a number on. -/
def numberBodies (a : Symbol) : Nat → List Body → List (Nat × Symbol × Body)
  | _, [] => []
  | n, body :: rest => (n, a, body) :: numberBodies a (n + 1) rest

/-- The rules of listed variables with numbers counted from a number on. -/
def numberedFrom (g : Grammar) : Nat → List Symbol → List (Nat × Symbol × Body)
  | _, [] => []
  | n, a :: rest =>
    numberBodies a n (g.rulesOf a) ++ numberedFrom g (n + (g.rulesOf a).length) rest

/-- Every rule with its number, in the order of the numbers. -/
def numberedRules (g : Grammar) : List (Nat × Symbol × Body) := g.numberedFrom 1 g.displayOrder

/-- Whether two grammars have the same components. The order of the rule
table does not count; the order of alternatives and the display order do. -/
def same (g h : Grammar) : Bool :=
  g.vars == h.vars && g.terminals == h.terminals && g.rules.sameContent h.rules &&
    g.start == h.start && g.order == h.order

/-- The number of symbols in all bodies. -/
def bodySymbols (g : Grammar) : Nat := (g.rules.entries.flatMap fun entry => entry.2.flatten).length

/-- A grammar is closed when its variables are nonterminals, its declared
terminals are terminals and every nonterminal in a body is a variable. -/
structure Closed (g : Grammar) : Prop where
  /-- Variables are nonterminals. -/
  vars_nonterminal : ∀ a ∈ g.vars, a.isNonterminal = true
  /-- Declared terminals are terminals. -/
  terminals_terminal : ∀ a ∈ g.terminals, a.isTerminal = true
  /-- The nonterminals of bodies are variables. -/
  body_declared : ∀ a, ∀ body ∈ g.rulesOf a, ∀ x ∈ body, x.isNonterminal = true → x ∈ g.vars

end Grammar

/-- Checked components are those of the grammar. -/
theorem Components.check_eq_ok {c : Components} {g : Grammar} (h : c.check = .ok g) :
    g.toComponents = c := by
  unfold Components.check at h
  split at h
  · cases h; rfl
  · cases h

/-- Components are accepted exactly if they have no fault. -/
theorem Components.check_isOk_iff {c : Components} :
    (∃ g, c.check = .ok g) ↔ c.faults = [] := by
  constructor
  · rintro ⟨g, h⟩
    have := g.sound
    rwa [Components.check_eq_ok h] at this
  · intro h
    unfold Components.check
    split
    · exact ⟨_, rfl⟩
    · next fault rest hf => rw [h] at hf; cases hf

end PredictiveParsing
