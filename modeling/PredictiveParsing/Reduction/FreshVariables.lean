import PredictiveParsing.Grammar.Names

/-!
# New variables beside old ones

A transformation that needs a new variable makes its name from that of the
variable it serves, and displays it as many places after that variable as
the name has got longer, or last if the list ends before.
-/

namespace PredictiveParsing

/-- A list with one more symbol at a place; beyond the end it comes last. -/
def insertAt (place : Nat) (a : Symbol) (l : List Symbol) : List Symbol :=
  l.take place ++ a :: l.drop place

/-- A display order with a new variable beside the one it was made from. -/
def placeFresh (base new : Symbol) (order : List Symbol) : List Symbol :=
  insertAt (min (order.idxOf base + (new.name.length - base.name.length)) order.length) new order

namespace Components

/-- The names that variables bear. -/
def usedNames (c : Components) : List String := c.vars.members.map Symbol.name

/-- The alternatives of a symbol; a symbol without an entry has none. -/
def rulesOf (c : Components) (a : Symbol) : List Body := (c.rules.get? a).getD []

/-- The components with a new variable, which has the given alternatives. -/
def addVariable (c : Components) (base new : Symbol) (bodies : List Body) : Components :=
  { c with
    vars := c.vars.insert new
    rules := c.rules.set new bodies
    order := c.order.map (placeFresh base new) }

/-- The components with the alternatives of a variable replaced. -/
def setRules (c : Components) (a : Symbol) (bodies : List Body) : Components :=
  { c with rules := c.rules.set a bodies }

end Components

end PredictiveParsing
