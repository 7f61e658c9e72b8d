import PredictiveParsing.Grammar.Names
import PredictiveParsing.PascalMP
import PredictiveParsing.ParseTree
import PredictiveParsing.RuleText.Production

/-!
# Requests

A request is an object of named data. It may hold settings, the text of a
grammar with a start symbol, a list of tokens and the units of terminals.
What is wrong with a request is either a fault of the client, which is
answered with its message, or a datum of a kind that the work cannot take at
all.
-/

namespace PredictiveParsing.Service

/-- Faults of the client. -/
inductive RequestFault where
  /-- The settings are not named data. -/
  | optionsNotObject
  /-- A setting has a datum of the wrong kind. -/
  | setting (fault : SettingFault)
  /-- The units of the terminals are not named data. -/
  | unitsNotObject
  /-- There is no list of tokens, or an empty one. -/
  | noTokens
  /-- A token is no object, or has no type. -/
  | malformedToken (raw : Datum)
  /-- The type of a token is the name of no unit. -/
  | unknownUnit (type : Datum)
  /-- The grammar is refused. -/
  | grammar (fault : GrammarFault)
  deriving DecidableEq

/-- The message of a fault of the client. -/
def RequestFault.message : RequestFault → String
  | optionsNotObject => "Options must be a JSON object"
  | setting fault => fault.message
  | unitsNotObject => "terminal_map must be a JSON object"
  | noTokens => "No tokens provided"
  | malformedToken raw => "Malformed token: " ++ raw.literal
  | unknownUnit type => "Unknown lexical unit: " ++ type.display
  | grammar fault => fault.message

/-- Faults that interrupt the work. -/
inductive InternalFault where
  /-- A text was needed and another datum given. -/
  | notText (given : Datum)
  /-- A datum with parts cannot be looked up or collected. -/
  | notScalar (given : Datum)
  /-- A table lacks a symbol. -/
  | missing (entry : MissingEntry)
  /-- A tree cannot be drawn. -/
  | tree (fault : TreeFault)
  /-- A parse does not end. -/
  | endless
  deriving DecidableEq

/-- The message of a fault that interrupts the work. -/
def InternalFault.message : InternalFault → String
  | notText given => "expected string or bytes-like object, got '" ++ given.kindName ++ "'"
  | notScalar given => "unhashable type: '" ++ given.kindName ++ "'"
  | missing entry => entry.message
  | tree fault => fault.message
  | endless => "the parse does not end"

/-- Why a request is not carried out. -/
inductive Refusal where
  /-- The client is at fault. -/
  | client (fault : RequestFault)
  /-- The work was interrupted. -/
  | internal (fault : InternalFault)
  deriving DecidableEq

/-- Named data of a request. -/
abbrev Fields := List (String × Datum)

/-- The named data of a request. A vacant request has none, and another one
that is no object cannot be used. -/
def requestFields? : Datum → Option Fields
  | .object fields => some fields
  | d => if d.isVacant then some [] else none

/-- The datum of a name, or no value. -/
def value (fields : Fields) (name : String) : Datum := (Datum.field? name fields).getD .null

/-- The settings of a request. Vacant settings are the defaults. -/
def readSettings (fields : Fields) : Except Refusal Settings :=
  let options := value fields "options"
  let read (given : Fields) : Except Refusal Settings :=
    match Settings.ofFields given with
    | .ok settings => .ok settings
    | .error fault => .error (.client (.setting fault))
  if options.isVacant then read []
  else match options with
    | .object given => read given
    | _ => .error (.client .optionsNotObject)

/-- Faults of grammars as reasons to refuse a request. -/
def ofGrammarFault {α : Type} : Except GrammarFault α → Except Refusal α
  | .ok a => .ok a
  | .error fault => .error (.client (.grammar fault))

/-- The grammar of a text with a start symbol. A start symbol that is no text
has no productions, and one with parts cannot be looked up. -/
def readGrammar (text start : Datum) : Except Refusal Grammar :=
  match text with
  | .text source => do
    let productions ← ofGrammarFault (RuleText.readProductions source)
    match start with
    | .null => ofGrammarFault (RuleText.grammarOf productions none)
    | .text name => ofGrammarFault (RuleText.grammarOf productions (some name))
    | other =>
      if other.isScalar then
        .error (.client (.grammar (.startWithoutProductions other.display)))
      else .error (.internal (.notScalar other))
  | other => .error (.internal (.notText other))

/-- The units that a request gives to terminals. -/
def readUnits : Datum → Except Refusal (Option UnitMap)
  | .null => .ok none
  | .object fields => .ok (some (fields.map fun field => (field.1, .plain field.2)))
  | _ => .error (.client .unitsNotObject)

/-- A token of a request, whose type becomes a unit in the given way. -/
def readToken (unitOf : Datum → Except Refusal LexicalUnit) (raw : Datum) :
    Except Refusal Token :=
  match raw with
  | .object fields =>
    match Datum.field? "type" fields with
    | some type => do
      let unit ← unitOf type
      pure {
        unit
        value := value fields "value"
        line := (Datum.field? "line" fields).getD (.int 1)
        column := (Datum.field? "column" fields).getD (.int 1) }
    | none => .error (.client (.malformedToken raw))
  | _ => .error (.client (.malformedToken raw))

/-- The tokens of a request, at least one. -/
def readTokens (unitOf : Datum → Except Refusal LexicalUnit) (raw : Datum) :
    Except Refusal (List Token) :=
  match raw with
  | .list [] => .error (.client .noTokens)
  | .list items => items.mapM (readToken unitOf)
  | _ => .error (.client .noTokens)

/-- The type of a token beside a grammar of the client: its text. -/
def shownUnit (type : Datum) : Except Refusal LexicalUnit := .ok (.named type.display)

/-- The type of a token of PascalMP: the name of a unit. -/
def pascalUnit (type : Datum) : Except Refusal LexicalUnit :=
  match type with
  | .text name =>
    match PascalMP.PascalUnit.ofName? name with
    | some u => .ok u.unit
    | none => .error (.client (.unknownUnit type))
  | other =>
    if other.isScalar then .error (.client (.unknownUnit other))
    else .error (.internal (.notScalar other))

/-- What a request asks to parse. -/
structure ParseJob where
  /-- The settings. -/
  settings : Settings
  /-- The grammar before reduction. -/
  grammar : Grammar
  /-- The units of the terminals. -/
  units : Option UnitMap
  /-- The tokens. -/
  tokens : List Token

/-- What a request asks to parse: tokens of the grammar that it gives, or
tokens of PascalMP if it gives none. -/
def readJob (fields : Fields) : Except Refusal ParseJob := do
  let settings ← readSettings fields
  let text := value fields "cfg"
  if text.isVacant then
    let tokens ← readTokens pascalUnit (value fields "tokens")
    pure { settings, grammar := PascalMP.grammar, units := some PascalMP.unitMap, tokens }
  else
    let grammar ← readGrammar text (value fields "start_symbol")
    let units ← readUnits (value fields "terminal_map")
    let tokens ← readTokens shownUnit (value fields "tokens")
    pure { settings, grammar, units, tokens }

end PredictiveParsing.Service
