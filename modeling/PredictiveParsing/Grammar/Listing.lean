import PredictiveParsing.Grammar

/-!
# Listings of grammars

A listing has a line for every rule, in the order of the numbers. The
numbers stand in brackets and are aligned to the right, the variables to
the left; a variable is written on the first of its lines only, and a bar
takes the place of the arrow on the others.
-/

namespace PredictiveParsing.Grammar

/-- The line of a rule, with the widths of the two columns; `repeated` tells
that the line before is of the same variable. -/
def ruleLine (labelWidth headWidth : Nat) (repeated : Bool) (rule : Nat × Symbol × Body) :
    String :=
  let (number, head, body) := rule
  let label := Text.padLeft labelWidth ("[" ++ toString number ++ "]")
  let headText := Text.padRight headWidth (if repeated then "" else head.text)
  let arrow := if repeated then " |" else "->"
  label ++ " " ++ headText ++ " " ++ arrow ++ " " ++ bodyText body

/-- The lines of numbered rules after a line of the given variable. -/
def ruleLines (labelWidth headWidth : Nat) :
    Option Symbol → List (Nat × Symbol × Body) → List String
  | _, [] => []
  | previous, rule :: rest =>
    ruleLine labelWidth headWidth (previous == some rule.2.1) rule ::
      ruleLines labelWidth headWidth (some rule.2.1) rest

/-- The largest number of a list, zero for none. -/
def largest (numbers : List Nat) : Nat := numbers.foldr max 0

/-- The listing of a grammar. -/
def listing (g : Grammar) : String :=
  let rules := g.numberedRules
  let labelWidth := (toString rules.length).length + 2
  let headWidth := largest (rules.map fun rule => rule.2.1.text.length)
  Text.lines (ruleLines labelWidth headWidth none rules)

end PredictiveParsing.Grammar
