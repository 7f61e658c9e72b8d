/-!
# Styles of reports

A style gives the classes of the parts of a report and says how much of it
is written out.
-/

namespace PredictiveParsing

/-- How reports are rendered. -/
structure Style where
  /-- Classes of action tables. -/
  tableClasses : String := "parse-table"
  /-- Classes of rule traces. -/
  traceClasses : String := "parsing-trace"
  /-- Classes of error messages. -/
  errorClasses : String := "error-message"
  /-- Put a style sheet before action tables. -/
  inlineStyles : Bool := true
  /-- Write rule traces on one line. -/
  compact : Bool := false
  /-- Show the values of tokens in drawings of trees. -/
  showValues : Bool := true
  deriving DecidableEq, Repr

end PredictiveParsing
