import PredictiveParsing.Datum

/-!
# Tokens

A scanner delivers tokens: a lexical unit with a value and a place. A unit
is a datum, such as a name or a number, or a member of an enumeration of
units. Units are compared by structure, so that a member never equals a
datum of the same name.
-/

namespace PredictiveParsing

/-- The type of a token. -/
inductive LexicalUnit where
  /-- A datum taken as it is. -/
  | plain (value : Datum)
  /-- A member of an enumeration of units. -/
  | member (enumeration name : String)
  deriving DecidableEq, Inhabited

namespace LexicalUnit

/-- The unit of a name. -/
def named (name : String) : LexicalUnit := plain (.text name)

/-- The unit of symbols to which none is assigned. -/
def none : LexicalUnit := plain .null

/-- The name of a unit in messages. -/
def name : LexicalUnit → String
  | plain value => value.display
  | member _ n => n

/-- A unit as it is shown inside a token. -/
def text : LexicalUnit → String
  | plain value => value.display
  | member enumeration n => enumeration ++ "." ++ n

/-- Whether a unit can be collected in a set. -/
def isScalar : LexicalUnit → Bool
  | plain value => value.isScalar
  | member _ _ => true

@[simp] theorem name_named (n : String) : (named n).name = n := rfl

end LexicalUnit

/-- A token of the input. -/
structure Token where
  /-- The lexical unit, which grammars see. -/
  unit : LexicalUnit
  /-- The value, which trees show. -/
  value : Datum
  /-- The line, as the scanner gives it. -/
  line : Datum := .int 1
  /-- The column, as the scanner gives it. -/
  column : Datum := .int 1
  deriving DecidableEq, Inhabited

namespace Token

/-- A token as text. -/
def text (t : Token) : String :=
  "Token(" ++ t.unit.text ++ ", '" ++ t.value.display ++ "', line=" ++ t.line.display ++
    ", column=" ++ t.column.display ++ ")"

/-- The sentence that describes the token of a syntax error. -/
def encounter (t : Token) : String :=
  "Token encountered: type = " ++ t.unit.name ++ " value = " ++ t.value.display ++
    " at line " ++ t.line.display ++ " and column " ++ t.column.display

end Token

end PredictiveParsing
