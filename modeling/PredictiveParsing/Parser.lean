import PredictiveParsing.ActionTable
import PredictiveParsing.Reduction
import PredictiveParsing.SyntaxError
import PredictiveParsing.TokenStream

/-!
# Predictive parsers

A parser is made for a grammar and a stream of tokens. It reduces the
grammar and computes its FIRST and FOLLOW sets once. Which alternative of a
variable to apply is decided by these sets and one token; the action table
serves diagnosis only.

Terminals are matched with tokens through their units. Without a map the
unit of a terminal is its name; with a map, a terminal that the map does not
mention has no unit, and matches tokens that have none.
-/

namespace PredictiveParsing

/-- The units of terminal names; of several entries for a name the first
counts. -/
abbrev UnitMap := List (String × LexicalUnit)

/-- The unit of a name. -/
def UnitMap.unit? : UnitMap → String → Option LexicalUnit
  | [], _ => none
  | (key, unit) :: rest, name => if key = name then some unit else UnitMap.unit? rest name

/-- A parser for one stream of tokens. -/
structure Parser where
  /-- How the grammar was reduced, and whether the stream must end. -/
  settings : Settings
  /-- The reduced grammar. -/
  grammar : Grammar
  /-- The action table of the reduced grammar, with its FIRST and FOLLOW
  sets. -/
  table : ActionTable
  /-- The tokens to parse. -/
  stream : TokenStream
  /-- The units of the terminals, if they are not the names. -/
  units : Option UnitMap

/-- Why there is no parser. -/
inductive ParserFault where
  /-- There is not even an end marker to parse. -/
  | emptyStream
  /-- The grammar cannot be reduced. -/
  | grammar (fault : GrammarFault)
  deriving DecidableEq

/-- The message of a fault. -/
def ParserFault.message : ParserFault → String
  | emptyStream => "Token stream must contain at least the end-of-stream marker"
  | grammar fault => fault.message

namespace Parser

/-- The parser of a grammar for a list of tokens. -/
def make (settings : Settings) (grammar : Grammar) (units : Option UnitMap)
    (tokens : List Token) : Except ParserFault Parser :=
  match TokenStream.ofList? tokens with
  | none => .error .emptyStream
  | some stream =>
    match grammar.reduce settings with
    | .error fault => .error (.grammar fault)
    | .ok reduced =>
      .ok { settings, grammar := reduced, table := ActionTable.ofGrammar reduced, stream, units }

/-- The FIRST sets of the reduced grammar. -/
def first (p : Parser) : FirstTable := p.table.lookahead.first

/-- The FOLLOW sets of the reduced grammar. -/
def follow (p : Parser) : FollowTable := p.table.lookahead.follow

/-- The unit of a symbol. -/
def unitOf (p : Parser) (a : Symbol) : LexicalUnit :=
  if a = .epsilon then .none
  else match p.units with
    | none => .named a.name
    | some units => (units.unit? a.name).getD .none

/-- Whether a set has a symbol, other than the empty string, with a unit. -/
def meets (p : Parser) (s : SymbolSet) (unit : LexicalUnit) : Bool :=
  s.members.any fun a => !a.isEpsilon && p.unitOf a == unit

/-- The symbols with which a body can start, as far as its leading symbol
tells: a symbol without a FIRST set stands for itself. -/
def leadingSet (p : Parser) (body : Body) : SymbolSet :=
  match body.head? with
  | some x => (p.first.get? x).getD (.singleton x)
  | none => ∅

/-- The alternative of a variable to apply when a unit comes next, by its
place among the alternatives. The empty string is preferred if the unit can
follow the variable. Otherwise the first alternative counts whose leading
symbol can start with the unit, and the empty string again if the unit marks
the end of the stream. -/
def select (p : Parser) (a : Symbol) (unit : LexicalUnit) : Option Nat :=
  let bodies := p.grammar.rulesOf a
  let vanishes := p.grammar.hasEpsilonRule a
  if vanishes && p.meets (p.follow.members a) unit then some (bodies.idxOf epsilonBody)
  else match bodies.findIdx? fun body => p.meets (p.leadingSet body) unit with
    | some i => some i
    | none =>
      if vanishes && unit == p.stream.endUnit then some (bodies.idxOf epsilonBody) else none

/-- The units of the FIRST set of a variable, each once, in alphabetical
order; symbols without a unit are left out. -/
def acceptable (p : Parser) (a : Symbol) : List LexicalUnit :=
  let units := ((p.first.get? a).getD ∅).members.map p.unitOf
  Text.sortBy LexicalUnit.name (units.filter fun unit => unit != .none).eraseDups

/-- Whether no cell of the action table holds more alternatives than a
number. -/
def isLL (p : Parser) (n : Int) : Bool := p.table.isLL n

end Parser

end PredictiveParsing
