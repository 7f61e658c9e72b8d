import PredictiveParsing.Reduction.Factoring
import PredictiveParsing.Reduction.LeftRecursion
import PredictiveParsing.Reduction.Useful
import PredictiveParsing.Settings

/-!
# The reduction of a grammar

Before a grammar is used for parsing, useless symbols are removed, direct
left recursion is removed after that, and common prefixes are factored last.
Each stage can be switched off.
-/

namespace PredictiveParsing.Grammar

/-- A stage of a transformation, if it is switched on. -/
def stage (on : Bool) (transform : Grammar → Except GrammarFault Grammar) (g : Grammar) :
    Except GrammarFault Grammar :=
  if on then transform g else .ok g

/-- The reduced grammar. -/
def reduce (settings : Settings) (g : Grammar) : Except GrammarFault Grammar := do
  let useful ← stage settings.removeUseless removeUseless g
  let split ← stage settings.removeLeftRecursion removeLeftRecursion useful
  stage settings.leftFactor leftFactor split

end PredictiveParsing.Grammar
