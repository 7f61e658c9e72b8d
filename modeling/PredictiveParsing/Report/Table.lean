import PredictiveParsing.ActionTable
import PredictiveParsing.Report.Style
import PredictiveParsing.Text.Escape

/-!
# Reports on grammars

The report on a grammar is its action table as a table in markup, with a row
for each variable in display order and a column for each terminal in
alphabetical order, and a list of the conflicts of the table.
-/

namespace PredictiveParsing.Report

open Text

/-- The style sheet of action tables. -/
def tableStyles : String := lines [
  "",
  "<style>",
  ".parse-table \x7b",
  "    border-collapse: collapse;",
  "    font-family: 'Courier New', monospace;",
  "    font-size: 12px;",
  "\x7d",
  "",
  ".parse-table th, .parse-table td \x7b",
  "    border: 1px solid #374151;",
  "    padding: 6px 10px;",
  "    text-align: center;",
  "\x7d",
  "",
  ".grammar-action-conflict \x7b",
  "    background-color: #dc2626;",
  "    color: #fecaca;",
  "    padding: 2px 6px;",
  "    border-radius: 4px;",
  "    font-weight: bold;",
  "\x7d",
  "</style>",
  ""]

/-- A message in place of a report that has nothing to show. -/
def emptyReport (style : Style) (message : String) : String :=
  lines ["<div class=\"" ++ style.errorClasses ++ "\">", "<p>" ++ escapeMarkup message ++ "</p>",
    "</div>"]

/-- The inside of a cell: nothing, the number of the predicted rule, or the
numbers of the rules in conflict. -/
def cellContent : List Nat → String
  | [] => ""
  | [number] => "<span class=\"grammar-action-predict\">" ++ toString number ++ "</span>"
  | numbers =>
    let parts := numbers.map fun number =>
      "<span class=\"conflict-action\">" ++ toString number ++ "</span>"
    "<span class=\"grammar-action-conflict\">" ++ join " / " parts ++ "</span>"

/-- The heading of a column. -/
def columnHeading (t : Symbol) : String :=
  "<th class=\"grammar-table-header\" scope=\"col\">" ++ escapeMarkup t.name ++ "</th>"

/-- The row of a variable. -/
def tableRow (table : ActionTable) (terminals : List Symbol) (a : Symbol) : List String :=
  ["<tr>",
    "<th class=\"grammar-table-cell grammar-table-cell-primary\" scope=\"row\">" ++
      escapeMarkup a.name ++ "</th>"] ++
  terminals.map (fun t =>
    "<td class=\"grammar-table-cell\">" ++ cellContent (table.cellNumbers a t) ++ "</td>") ++
  ["</tr>"]

/-- An action table in markup. -/
def actionTable (style : Style) (table : ActionTable) : String :=
  let vars := table.grammar.displayOrder
  let terminals := table.terminals
  if vars.isEmpty || terminals.isEmpty then
    emptyReport style "No action table entries found"
  else lines <|
    (if style.inlineStyles then [tableStyles] else []) ++
    ["<table class=\"grammar-table " ++ style.tableClasses ++
        "\" role=\"table\" aria-label=\"LL(1) Action Table\">",
      "<thead>",
      "<tr>",
      "<th class=\"grammar-table-header grammar-table-header-primary\" scope=\"col\">" ++
        "Variable</th>"] ++
    terminals.map columnHeading ++
    ["</tr>", "</thead>", "<tbody>"] ++
    vars.flatMap (tableRow table terminals) ++
    ["</tbody>", "</table>"]

/-- One conflict in a list of conflicts, with its place in the list. -/
def conflictItem (place : Nat) (c : Conflict) : List String :=
  ["<div class=\"conflict-item\">",
    "<h5>Conflict " ++ toString place ++ "</h5>",
    "<p><strong>Variable:</strong> " ++ escapeMarkup c.head.text ++ "</p>",
    "<p><strong>Lookahead:</strong> " ++ escapeMarkup c.lookahead.text ++ "</p>",
    "<ul>"] ++
  (c.numbers.zip c.bodies).map (fun (number, body) =>
    "<li>[" ++ toString number ++ "] " ++ escapeMarkup (bodyText body) ++ "</li>") ++
  ["</ul>", "</div>"]

/-- Conflicts numbered from a place on. -/
def conflictItems : Nat → List Conflict → List String
  | _, [] => []
  | place, c :: rest => conflictItem place c ++ conflictItems (place + 1) rest

/-- The conflicts of a table in markup. -/
def conflicts (found : List Conflict) : String :=
  if found.isEmpty then "<div class=\"no-conflicts\">No conflicts detected in the grammar.</div>"
  else lines <|
    ["<div class=\"conflict-report\">",
      "<h4>Grammar Conflicts (" ++ toString found.length ++ " found)</h4>"] ++
    conflictItems 1 found ++ ["</div>"]

end PredictiveParsing.Report
