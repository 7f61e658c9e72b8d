import PredictiveParsing.Grammar
import PredictiveParsing.ParseTree.Drawing
import PredictiveParsing.Report.Style
import PredictiveParsing.SyntaxError

/-!
# Reports on parses

A parse is reported by the drawings of its tree and by the list of the rules
it applied; a parse that failed, by its syntax error.
-/

namespace PredictiveParsing.Report

open Text

/-- The rule of a number in words; nothing for a number that is no rule's. -/
def productionText (g : Grammar) (number : Int) : String :=
  match g.numberedRules.find? fun rule => (rule.1 : Int) == number with
  | some (_, head, body) => head.text ++ " -> " ++ bodyText body
  | none => ""

/-- The row of an applied rule, with its place in the trace. -/
def traceRow (g : Grammar) (place : Nat) (number : Int) : String :=
  "<tr><td class=\"grammar-table-cell step-number\">" ++ toString place ++ "</td>" ++
    "<td class=\"grammar-table-cell\">" ++ toString number ++ "</td>" ++
    "<td class=\"grammar-table-cell production\">" ++ escapeMarkup (productionText g number) ++
    "</td></tr>"

/-- The rows of applied rules counted from a place on. -/
def traceRows (g : Grammar) : Nat → List Int → List String
  | _, [] => []
  | place, number :: rest => traceRow g place number :: traceRows g (place + 1) rest

/-- A trace as a table. -/
def traceTable (g : Grammar) (trace : List Int) : List String :=
  ["<table class=\"grammar-table trace-table\" role=\"table\" aria-label=\"Applied rules\">",
    "<thead>",
    "<tr>",
    "<th class=\"grammar-table-header grammar-table-header-primary\" scope=\"col\">Step</th>",
    "<th class=\"grammar-table-header\" scope=\"col\">Rule</th>",
    "<th class=\"grammar-table-header\" scope=\"col\">Production</th>",
    "</tr>",
    "</thead>",
    "<tbody>"] ++ traceRows g 1 trace ++ ["</tbody>", "</table>"]

/-- The applied rules of a parse in markup: a table with a row for each, or
their numbers alone in a compact style. The numbers refer to the given
grammar. -/
def ruleTrace (style : Style) (g : Grammar) (title : String) (trace : List Int) : String :=
  if trace.isEmpty then
    lines ["<div class=\"" ++ style.errorClasses ++ "\">", "<p>No rules applied</p>", "</div>"]
  else lines <|
    ["<div class=\"" ++ style.traceClasses ++ "\">",
      "<h3>" ++ escapeMarkup title ++ "</h3>"] ++
    (if style.compact then
      ["<p class=\"rule-trace\">" ++ join " " (trace.map toString) ++ "</p>"]
    else traceTable g trace) ++
    ["</div>"]

/-- What a syntax error says about its expectation. -/
def expectation : SyntaxError → List String
  | .mismatch expected _ =>
    ["<p><strong>Expected:</strong> " ++ escapeMarkup expected.name ++ "</p>"]
  | .noProduction head acceptable _ =>
    ["<p><strong>While parsing:</strong> " ++ escapeMarkup head.text ++ "</p>",
      "<p><strong>Acceptable:</strong> " ++
        escapeMarkup (join ", " (acceptable.map LexicalUnit.name)) ++ "</p>"]
  | .other _ _ => []

/-- A syntax error in markup. -/
def syntaxError (style : Style) (e : SyntaxError) : String :=
  lines <|
    ["<div class=\"" ++ style.errorClasses ++ "\">", "<h4>Syntax Error</h4>"] ++
    expectation e ++
    ["<p><strong>Found:</strong> " ++ escapeMarkup e.token.unit.name ++ " <code>" ++
        escapeMarkup e.token.value.display ++ "</code> at line " ++ e.token.line.display ++
        ", column " ++ e.token.column.display ++ "</p>",
      "</div>"]

/-- Every rendering of a parse. -/
structure ParseReport where
  /-- The tree as the description of a graph. -/
  graph : String
  /-- The tree as indented text. -/
  text : String
  /-- The tree for typesetting. -/
  typeset : String
  /-- The applied rules. -/
  trace : String
  deriving DecidableEq

/-- The report on a tree and the numbers of the applied rules. -/
def parseReport (style : Style) (g : Grammar) (tree : ParseTree) (trace : List Int) :
    Except TreeFault ParseReport := do
  let graph ← tree.drawGraph style.showValues "Parse Tree"
  let text ← tree.drawText style.showValues
  let typeset ← tree.drawTypeset style.showValues
  pure { graph, text, typeset, trace := ruleTrace style g "Applied Rules" trace }

end PredictiveParsing.Report
