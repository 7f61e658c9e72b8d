import PredictiveParsing.Symbol
import PredictiveParsing.Token
import PredictiveParsing.Text.Layout

/-!
# Syntax errors

A parse ends with an error where a terminal does not match the current
token, or where no alternative of a variable accepts it. The error carries
the token and what was expected in its place.
-/

namespace PredictiveParsing

/-- Why a token stream is rejected. -/
inductive SyntaxError where
  /-- A terminal was due whose unit is not that of the token. -/
  | mismatch (expected : LexicalUnit) (token : Token)
  /-- No alternative of a variable accepts the token. -/
  | noProduction (head : Symbol) (acceptable : List LexicalUnit) (token : Token)
  /-- Another cause, in words. -/
  | other (reason : String) (token : Token)
  deriving DecidableEq

namespace SyntaxError

/-- The offending token. -/
def token : SyntaxError → Token
  | mismatch _ t => t
  | noProduction _ _ t => t
  | other _ t => t

/-- The message of an error. -/
def message : SyntaxError → String
  | mismatch expected t => Text.lines [
      "Syntax Error:",
      "The following token does not match with the expected lexical unit:",
      "Expected lexical unit: " ++ expected.name,
      t.encounter]
  | noProduction _ acceptable t => Text.lines [
      "Syntax Error:",
      "The following token does not match with any of the acceptable lexical units expected",
      "Acceptable lexical units: " ++ Text.join " " (acceptable.map LexicalUnit.name),
      t.encounter]
  | other reason _ => reason

end SyntaxError

end PredictiveParsing
