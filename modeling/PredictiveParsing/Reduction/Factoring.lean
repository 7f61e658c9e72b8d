import PredictiveParsing.Reduction.FreshVariables

/-!
# Left factoring

Where alternatives of a variable A share a prefix, a new variable takes what
follows the prefix in them, and one alternative of A, put last, is the
prefix followed by the new variable. All pairs of alternatives are compared,
each alternative with every earlier one, and the prefix of the last pair
that has one is used. All variables with a shared prefix are factored in one
pass, in display order, and passes are repeated while there are some.
-/

namespace PredictiveParsing

/-- The longest common prefix of two bodies. -/
def commonPrefix : Body → Body → Body
  | a :: rest, b :: others => if a = b then a :: commonPrefix rest others else []
  | _, _ => []

/-- The pairs of bodies that are compared, a body first and an earlier one
second, in the order of comparison; the bodies seen before are given. -/
def comparedPairs (seen : List Body) : List Body → List (Body × Body)
  | [] => []
  | body :: rest => seen.map (fun earlier => (body, earlier)) ++ comparedPairs (seen ++ [body]) rest

/-- Whether a common prefix is worth factoring: it is not empty, and not the
empty string alone. -/
def isFactor (body : Body) : Bool := !body.isEmpty && body != epsilonBody

/-- The prefix shared by the last pair of bodies that share one. -/
def sharedPrefix? (bodies : List Body) : Option Body :=
  (((comparedPairs [] bodies).map fun pair => commonPrefix pair.1 pair.2).filter isFactor).getLast?

/-- The variables whose alternatives share a prefix, with that prefix, in
display order. -/
def Grammar.factorable (g : Grammar) : List (Symbol × Body) :=
  g.displayOrder.filterMap fun a => (sharedPrefix? (g.rulesOf a)).map fun p => (a, p)

/-- What follows a prefix in the bodies that start with it; the empty string
stands for a body that is the prefix itself. -/
def suffixBodies (factor : Body) (bodies : List Body) : List Body :=
  (bodies.filter fun body => body.take factor.length == factor).map fun body =>
    match body.drop factor.length with
    | [] => epsilonBody
    | suffix => suffix

/-- The bodies that do not start with a prefix. -/
def otherBodies (factor : Body) (bodies : List Body) : List Body :=
  bodies.filter fun body => body.take factor.length != factor

namespace Components

/-- The components with a prefix of the alternatives of one variable
factored. -/
def factorOut (c : Components) (target : Symbol × Body) : Components :=
  let (a, factor) := target
  let new := Symbol.nonterminal (freshName a.name c.usedNames)
  let bodies := c.rulesOf a
  (c.setRules a (otherBodies factor bodies ++ [factor ++ [new]])).addVariable a new
    (suffixBodies factor bodies)

end Components

namespace Grammar

/-- Passes of factoring, at most a given number. -/
def factorPasses : (limit : Nat) → Grammar → Except GrammarFault Grammar
  | 0, g => .ok g
  | limit + 1, g =>
    match g.factorable with
    | [] => .ok g
    | targets => do
      let next ← (targets.foldl Components.factorOut g.toComponents).check
      factorPasses limit next

/-- The grammar in which no alternatives of a variable share a prefix. Each
factoring leaves fewer symbols that are not made by factoring, so that the
passes are no more than the symbols of all bodies. -/
def leftFactor (g : Grammar) : Except GrammarFault Grammar :=
  factorPasses (g.bodySymbols + 1) g

end Grammar

end PredictiveParsing
