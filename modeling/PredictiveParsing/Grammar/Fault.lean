import PredictiveParsing.Symbol

/-!
# What can be wrong with a grammar

A grammar is refused when its components do not fit together, when a text
does not describe one, or when its start symbol derives no terminal string.
Each cause has a message for the client.
-/

namespace PredictiveParsing

/-- A reason to refuse a grammar. -/
inductive GrammarFault where
  /-- The start symbol is not among the variables. -/
  | startNotVariable (start : Symbol)
  /-- The rule table has a key that is not a variable. -/
  | rulesWithoutVariable (key : Symbol)
  /-- A variable has an entry in the rule table and no alternative there. -/
  | noAlternatives (key : Symbol)
  /-- A body has no symbol at all. -/
  | emptyBody (key : Symbol)
  /-- The empty string is one of several symbols of a body. -/
  | epsilonAmongOthers (key : Symbol) (body : Body)
  /-- The display order is not a permutation of the variables. -/
  | orderNotPermutation
  /-- A text holds no production. -/
  | noProductions
  /-- A line neither starts a production nor continues one. -/
  | strayLine (line : String)
  /-- The requested start symbol has no production in the text. -/
  | startWithoutProductions (start : String)
  /-- No string of declared terminals is derived from the start symbol. -/
  | startUnproductive (start : Symbol)
  deriving DecidableEq, Repr

/-- The message of a fault. -/
def GrammarFault.message : GrammarFault → String
  | startNotVariable start =>
    "Start symbol " ++ start.text ++ " is not a variable of the grammar"
  | rulesWithoutVariable key => "Rules are given for " ++ key.text ++ ", which is not a variable"
  | noAlternatives key => "Variable " ++ key.text ++ " has an empty list of alternatives"
  | emptyBody key => "Variable " ++ key.text ++ " has an empty rule body; use epsilon instead"
  | epsilonAmongOthers key body =>
    "Epsilon must be the whole rule body of " ++ key.text ++ ": " ++ bodyText body
  | orderNotPermutation => "Variable order must be a permutation of the variables"
  | noProductions => "No productions found in grammar text"
  | strayLine line => "Line does not start a production: " ++ line
  | startWithoutProductions start => "Start symbol '" ++ start ++ "' has no productions"
  | startUnproductive start => "Start symbol " ++ start.text ++ " derives no terminal string"

end PredictiveParsing
