import PredictiveParsing.Reduction.FreshVariables

/-!
# Direct left recursion

A variable is directly left-recursive when one of its alternatives starts
with the variable and goes on. Such a variable A gets two new ones: it
becomes a U followed by a V, where U has the alternatives of A that do not
start with A, and V has, for each alternative A α, the alternative α V, and
the empty string. All recursive variables are split in one pass, in display
order, and passes are repeated while there are recursive variables.
Recursion through other variables is left as it is.
-/

namespace PredictiveParsing

/-- Whether a body starts with a symbol and goes on. -/
def recursesOn (a : Symbol) : Body → Bool
  | x :: _ :: _ => x == a
  | _ => false

/-- The directly left-recursive variables in display order. -/
def Grammar.leftRecursive (g : Grammar) : List Symbol :=
  g.displayOrder.filter fun a => (g.rulesOf a).any (recursesOn a)

/-- The alternatives that do not start with a symbol. -/
def baseBodies (a : Symbol) (bodies : List Body) : List Body :=
  bodies.filter fun body => body.head? != some a

/-- What follows a symbol in the alternatives that start with it, each with
a further symbol at its end. -/
def tailBodies (a last : Symbol) (bodies : List Body) : List Body :=
  bodies.filterMap fun body =>
    match body with
    | x :: rest => if x = a then some (rest ++ [last]) else none
    | [] => none

namespace Components

/-- The components with one variable split. The variable keeps its place in
the rule table, and the new ones follow at the end. -/
def splitRecursion (c : Components) (a : Symbol) : Components :=
  let first := Symbol.nonterminal (freshName a.name c.usedNames)
  let second := Symbol.nonterminal (freshName a.name (first.name :: c.usedNames))
  let bodies := c.rulesOf a
  let split := c.setRules a [[first, second]]
  (split.addVariable a first (baseBodies a bodies)).addVariable a second
    (tailBodies a second bodies ++ [epsilonBody])

end Components

namespace Grammar

/-- Passes of splitting, at most a given number. -/
def splitPasses : (limit : Nat) → Grammar → Except GrammarFault Grammar
  | 0, g => .ok g
  | limit + 1, g =>
    match g.leftRecursive with
    | [] => .ok g
    | recursive => do
      let next ← (recursive.foldl Components.splitRecursion g.toComponents).check
      splitPasses limit next

/-- The grammar without direct left recursion. Each variable is split at
most once, and a new variable only if its name stood in a body before it was
made, so that the passes are no more than the variables and the symbols of
all bodies together. -/
def removeLeftRecursion (g : Grammar) : Except GrammarFault Grammar :=
  splitPasses (g.vars.size + g.bodySymbols + 1) g

end Grammar

end PredictiveParsing
