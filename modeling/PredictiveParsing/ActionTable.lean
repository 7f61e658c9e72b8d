import PredictiveParsing.Lookahead.Follow

/-!
# Action tables

An action table gives each variable and terminal the alternatives that the
terminal predicts for the variable. The symbols of an alternative are
scanned from the left: the terminals of a symbol's FIRST set predict the
alternative, and if the empty string is in that set too, so do the members
of the variable's FOLLOW set, and the scan goes on with the next symbol.

A cell with several alternatives is a conflict; a table without conflicts
determines a predictive parser with one symbol of lookahead.
-/

namespace PredictiveParsing

/-- The alternatives of each variable and terminal, as they were added. -/
abbrev ActionRows := SymbolTable (SymbolTable (List Body))

/-- An action table with the grammar and the sets from which it is built.
The sets may belong to another grammar. -/
structure ActionTable where
  /-- The grammar whose alternatives are predicted. -/
  grammar : Grammar
  /-- The sets that predict. -/
  lookahead : Lookahead
  /-- The cells that hold something. -/
  rows : ActionRows

/-- The terminals that predict a body, given the FOLLOW set of its owner. -/
def predictors (l : Lookahead) (follow : SymbolSet) : Body → List Symbol
  | [] => []
  | x :: rest =>
    let first := l.firstOf x
    (first.erase .epsilon).members ++
      if .epsilon ∈ first then follow.members ++ predictors l follow rest else []

/-- Rows where a body is one of the alternatives of a cell. -/
def ActionRows.add (rows : ActionRows) (a t : Symbol) (body : Body) : ActionRows :=
  let row := (rows.get? a).getD SymbolTable.empty
  let cell := (row.get? t).getD []
  rows.set a (row.set t (if Body.among body cell then cell else cell ++ [body]))

/-- Every prediction of a grammar: a variable, a terminal and the predicted
body. -/
def predictions (g : Grammar) (l : Lookahead) : List (Symbol × Symbol × Body) :=
  g.displayOrder.flatMap fun a =>
    (g.rulesOf a).flatMap fun body =>
      (predictors l (l.follow.members a) body).map fun t => (a, t, body)

namespace ActionTable

/-- The table of a grammar with given FIRST and FOLLOW sets. -/
def build (g : Grammar) (l : Lookahead) : ActionTable where
  grammar := g
  lookahead := l
  rows := (predictions g l).foldl (fun rows p => rows.add p.1 p.2.1 p.2.2) SymbolTable.empty

/-- The table of a grammar with its own FIRST and FOLLOW sets. -/
def ofGrammar (g : Grammar) : ActionTable := build g (Lookahead.ofGrammar g)

/-- The alternatives in a cell as they were added. -/
def stored (table : ActionTable) (a t : Symbol) : List Body :=
  ((table.rows.get? a).bind fun row => row.get? t).getD []

/-- The alternatives in a cell, each once, in the order of the rules. -/
def cell (table : ActionTable) (a t : Symbol) : List Body :=
  (table.grammar.rulesOf a).eraseDups.filter fun body => Body.among body (table.stored a t)

/-- The rule numbers of the alternatives in a cell. -/
def cellNumbers (table : ActionTable) (a t : Symbol) : List Nat :=
  (table.cell a t).filterMap fun body =>
    (table.grammar.firstNumber? a).map fun n => n + (table.grammar.rulesOf a).idxOf body

/-- The cells that hold something, in the order of symbols. -/
def filledCells (table : ActionTable) : List (Symbol × Symbol) :=
  table.rows.keySet.members.flatMap fun a =>
    (((table.rows.get? a).map SymbolTable.keySet).getD ∅).members.map fun t => (a, t)

/-- The declared terminals and those that predict something, in
alphabetical order. -/
def terminals (table : ActionTable) : List Symbol :=
  Text.sortBy Symbol.name
    (table.grammar.terminals ∪ SymbolSet.ofList (table.filledCells.map Prod.snd)).members

/-- Whether no cell holds more alternatives than a number. -/
def isLL (table : ActionTable) (n : Int) : Bool :=
  table.filledCells.all fun cell => decide (((table.stored cell.1 cell.2).length : Int) ≤ n)

end ActionTable

/-- A cell with several alternatives. -/
structure Conflict where
  /-- The variable of the cell. -/
  head : Symbol
  /-- The terminal of the cell. -/
  lookahead : Symbol
  /-- The alternatives in the cell. -/
  bodies : List Body
  /-- Their rule numbers. -/
  numbers : List Nat
  deriving DecidableEq

/-- A conflict in words. -/
def Conflict.message (c : Conflict) : String :=
  "LL(1) conflict for " ++ c.head.text ++ " on '" ++ c.lookahead.text ++ "': rules " ++
    Text.join ", " (c.numbers.map toString) ++ " (" ++
    Text.join " | " (c.bodies.map bodyText) ++ ")"

namespace ActionTable

/-- The conflict in a cell, if there is one. -/
def conflict? (table : ActionTable) (a t : Symbol) : Option Conflict :=
  let bodies := table.cell a t
  if 1 < bodies.length then some ⟨a, t, bodies, table.cellNumbers a t⟩ else none

/-- The conflicts of a table, by variable in display order and by terminal
in alphabetical order. -/
def conflicts (table : ActionTable) : List Conflict :=
  let terminals := table.terminals
  table.grammar.displayOrder.flatMap fun a => terminals.filterMap (table.conflict? a)

/-- A set as it is listed: the names of its members in alphabetical order,
with a label for the empty string. -/
def setText (epsilonLabel : String) (s : SymbolSet) : String :=
  let names := s.members.map fun a => if a = .epsilon then epsilonLabel else a.name
  "\x7b " ++ String.join ((Text.sortBy id names).map (· ++ " ")) ++ "\x7d"

/-- The line of a variable with a set. -/
def setLine (epsilonLabel : String) (a : Symbol) (s : SymbolSet) : String :=
  a.text ++ "  : " ++ setText epsilonLabel s

/-- The lines of the FIRST sets; every variable must have one. -/
def firstLines (table : ActionTable) (epsilonLabel : String) :
    List Symbol → Except MissingEntry (List String)
  | [] => .ok []
  | a :: rest =>
    match table.lookahead.first.get? a with
    | none => .error ⟨a⟩
    | some s => (firstLines table epsilonLabel rest).map (setLine epsilonLabel a s :: ·)

/-- The lines of the filled cells of a variable. -/
def cellLines (table : ActionTable) (terminals : List Symbol) (a : Symbol) : List String :=
  terminals.filterMap fun t =>
    match table.cellNumbers a t with
    | [] => none
    | numbers =>
      some ("[ " ++ a.text ++ "   " ++ t.text ++ " ] = " ++ Text.join " " (numbers.map toString))

/-- The FIRST sets, the FOLLOW sets and the table as text. -/
def listing (table : ActionTable) (epsilonLabel : String) : Except MissingEntry String := do
  let order := table.grammar.displayOrder
  let firsts ← table.firstLines epsilonLabel order
  let follows := order.map fun a => setLine epsilonLabel a (table.lookahead.follow.members a)
  let cells := order.flatMap (table.cellLines table.terminals)
  pure <| Text.lines <|
    "First :" :: firsts ++ ["", "Follow :"] ++ follows ++ ["", "Action Table :"] ++ cells

end ActionTable

end PredictiveParsing
