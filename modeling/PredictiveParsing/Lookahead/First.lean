import PredictiveParsing.Grammar
import PredictiveParsing.Stabilize

/-!
# FIRST sets

The FIRST set of a variable collects the FIRST sets of the leading symbols
of its alternatives; a terminal and the empty string have themselves. The
sets of all variables are computed in passes over the rules in display
order, where a set that grows is seen by the later rules of its pass, until
a pass changes nothing. The symbols behind a leading symbol that can vanish
do not count.
-/

namespace PredictiveParsing

/-- The FIRST sets of symbols. -/
abbrev FirstTable := SymbolTable SymbolSet

/-- The FIRST set that a table gives to a symbol. A symbol without an entry
has itself, unless it is a nonterminal, which has nothing. -/
def FirstTable.lookup (t : FirstTable) (a : Symbol) : SymbolSet :=
  match t.get? a with
  | some s => s
  | none => if a.isNonterminal then ∅ else .singleton a

/-- A table where the FIRST set of a variable has grown by that of a leading
symbol. -/
def FirstTable.absorb (t : FirstTable) (leading : Symbol × Symbol) : FirstTable :=
  t.modify leading.1 (· ∪ t.lookup leading.2)

namespace Grammar

/-- Each variable with the leading symbol of an alternative, for all
alternatives in the order of their numbers. -/
def leadings (g : Grammar) : List (Symbol × Symbol) :=
  g.displayOrder.flatMap fun a =>
    (g.rulesOf a).filterMap fun body => body.head?.map fun x => (a, x)

/-- One pass over the rules. -/
def firstStep (g : Grammar) (t : FirstTable) : FirstTable := g.leadings.foldl FirstTable.absorb t

/-- One pass over the rules of a table that may lack variables: the first
variable with rules and without an entry is missed. -/
def firstPass (g : Grammar) (t : FirstTable) : Except MissingEntry FirstTable :=
  match g.leadings.find? fun leading => !t.contains leading.1 with
  | some leading => .error ⟨leading.1⟩
  | none => .ok (g.firstStep t)

/-- The symbols that have a FIRST set: the declared terminals, the empty
string and the variables. -/
def analysedSymbols (g : Grammar) : SymbolSet := (g.terminals ∪ g.vars).insert .epsilon

/-- The table before the first pass. -/
def initialFirst (g : Grammar) : FirstTable :=
  SymbolTable.tabulate g.analysedSymbols fun a => if a ∈ g.vars then ∅ else .singleton a

/-- A bound on the members that all sets of an analysis can have together:
members are analysed symbols or symbols of bodies. -/
def analysisBound (g : Grammar) : Nat :=
  g.analysedSymbols.size * (g.analysedSymbols.size + g.bodySymbols)

/-- The FIRST sets of a grammar. -/
def firstTable (g : Grammar) : FirstTable :=
  stabilize g.firstStep (g.analysisBound + 1) g.initialFirst

end Grammar

end PredictiveParsing
