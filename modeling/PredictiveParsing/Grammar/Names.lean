import PredictiveParsing.Grammar

/-!
# Grammars given by names

Where a grammar is given by plain names, a name among those of the variables
denotes that variable, the names of the empty string denote the empty
string, and any other name is a terminal. Names for new variables are made
from the name of an old one by apostrophes at its end.
-/

namespace PredictiveParsing

/-- The names that denote the empty string where no variable bears them. -/
def epsilonNames : List String := ["", "epsilon", "ε"]

/-- Apostrophes added to a name for as long as the name is taken, at most a
given number of times. -/
def primeUntilFree (taken : List String) : Nat → String → String
  | 0, name => name
  | count + 1, name => if name ∈ taken then primeUntilFree taken count (name ++ "'") else name

/-- The first name that is not taken among those made from a base by one or
more apostrophes. The names tried are pairwise different, so that one more
than there are taken ones suffices. -/
def freshName (base : String) (taken : List String) : String :=
  primeUntilFree taken taken.length (base ++ "'")

namespace Grammar

/-- The symbol that a name denotes beside given names of variables. -/
def symbolOfName (vars : List String) (name : String) : Symbol :=
  if name ∈ vars then .nonterminal name
  else if name ∈ epsilonNames then .epsilon
  else .terminal name

/-- The components that names describe. -/
def componentsOfNames (vars terminals : List String)
    (rules : List (String × List (List String))) (start : String)
    (order : Option (List String)) : Components where
  vars := SymbolSet.ofList (vars.map .nonterminal)
  terminals := SymbolSet.ofList
    ((terminals.filter fun name => decide (name ∉ epsilonNames)).map .terminal)
  rules := SymbolTable.ofList <| rules.map fun rule =>
    (.nonterminal rule.1, rule.2.map fun body => body.map (symbolOfName vars))
  start := .nonterminal start
  order := order.map fun names => names.map .nonterminal

/-- The grammar that names describe. A variable that is given alternatives
more than once keeps its first place in the rule table and its last
alternatives. -/
def ofNames (vars terminals : List String) (rules : List (String × List (List String)))
    (start : String) (order : Option (List String)) : Except GrammarFault Grammar :=
  (componentsOfNames vars terminals rules start order).check

end Grammar

end PredictiveParsing
