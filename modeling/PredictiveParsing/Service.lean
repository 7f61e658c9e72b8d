import PredictiveParsing.Descent
import PredictiveParsing.Grammar.Listing
import PredictiveParsing.Report.Parse
import PredictiveParsing.Report.Table
import PredictiveParsing.Service.Request

/-!
# The service

The service answers two requests: to analyse a grammar, and to parse a list
of tokens. An answer has a status, 200 for success, 400 for a fault of the
client and 500 for an interruption of the work, and named data; a request
that cannot be read at all is answered without data.
-/

namespace PredictiveParsing.Service

/-- The requests that the service knows. -/
inductive Endpoint where
  /-- Reduce a grammar and report its sets and its action table. -/
  | analyzeGrammar
  /-- Parse a list of tokens. -/
  | parseTokens
  deriving DecidableEq, Repr

/-- An answer of the service. -/
structure Response where
  /-- The status of the answer. -/
  status : Nat
  /-- The data of the answer, if it has any. -/
  body : Option Datum
  deriving DecidableEq

/-- An answer with named data. -/
def reply (status : Nat) (fields : Fields) : Response := ⟨status, some (.object fields)⟩

/-- An interruption of the work that is not answered with data. -/
def collapse : Response := ⟨500, none⟩

/-- How a datum is shown inside a message: escaped, and not at all if there
is no value. -/
def shownInMessage : Datum → String
  | .null => ""
  | d => Text.escapeMessage d.display

/-- The error text of an interruption. -/
def interruption (fault : InternalFault) : Datum :=
  .text ("Unexpected server error: " ++ shownInMessage (.text fault.message))

/-- The data of the analysis of a reduced grammar. -/
def analysis (settings : Settings) (reduced : Grammar) : Except MissingEntry Fields := do
  let table := ActionTable.ofGrammar reduced
  let conflicts := table.conflicts
  let listing ← table.listing settings.epsilonLabel
  pure [
    ("success", .bool true),
    ("start_symbol", .text reduced.start.text),
    ("reduced_grammar", .text reduced.listing),
    ("analysis", .text listing),
    ("is_ll1", .bool (table.isLL 1)),
    ("action_table_html", .text (Report.actionTable {} table)),
    ("conflicts_html", .text (Report.conflicts conflicts)),
    ("conflicts", .list (conflicts.map fun c => .text c.message))]

/-- The work of an analysis. -/
def analyze (fields : Fields) : Except Refusal Fields := do
  let settings ← readSettings fields
  let grammar ← readGrammar (value fields "cfg") (value fields "start_symbol")
  let reduced ← ofGrammarFault (grammar.reduce settings)
  match analysis settings reduced with
  | .ok data => pure data
  | .error entry => .error (.internal (.missing entry))

/-- The answer to a request for an analysis. -/
def analyzeResponse (fields : Fields) : Response :=
  if (value fields "cfg").isVacant then reply 400 [("error", .text "No CFG provided")]
  else match analyze fields with
    | .ok data => reply 200 data
    | .error (.client fault) =>
      reply 400 [("success", .bool false), ("error", .text fault.message)]
    | .error (.internal fault) => reply 500 [("error", interruption fault)]

/-- An interruption of a parse. -/
def systemError (fault : InternalFault) : Response :=
  reply 500 [("error", interruption fault), ("error_type", .text "system_error")]

/-- What messages call the kind of a syntax error. -/
def errorType : SyntaxError → String
  | .noProduction _ _ _ => "no_applicable_production"
  | _ => "token_mismatch"

/-- The units among which an error lists those that cannot be collected. -/
def uncollectable? : SyntaxError → Option Datum
  | .noProduction _ acceptable _ =>
    acceptable.findSome? fun unit =>
      match unit with
      | .plain d => if d.isScalar then none else some d
      | .member _ _ => none
  | _ => none

/-- The answer to a parse that ended with a syntax error. -/
def syntaxErrorResponse (e : SyntaxError) : Response :=
  match uncollectable? e with
  | some d => systemError (.notScalar d)
  | none => reply 400 [
      ("success", .bool false),
      ("error", .text e.message),
      ("error_type", .text (errorType e)),
      ("error_html", .text (Report.syntaxError {} e))]

/-- The answer to a parse that was successful. -/
def successResponse (p : Parser) (s : ParseState) : Response :=
  let trace := s.trace.map Int.ofNat
  match Report.parseReport {} p.grammar s.tree trace with
  | .error fault => systemError (.tree fault)
  | .ok report => reply 200 [
      ("success", .bool true),
      ("ruleTrace", .list (trace.map .int)),
      ("parseTreeDot", .text report.graph),
      ("parseTreeText", .text report.text),
      ("parseTreeLatex", .text report.typeset),
      ("traceHtml", .text report.trace),
      ("isLL1", .bool (p.isLL 1))]

/-- The answer to something to parse. -/
def jobResponse (job : ParseJob) : Response :=
  match Parser.make job.settings job.grammar job.units job.tokens with
  | .error fault => reply 400 [
      ("success", .bool false),
      ("error", .text fault.message),
      ("error_type", .text "grammar_error")]
  | .ok p =>
    match p.parse with
    | none => systemError .endless
    | some ⟨_, .error e⟩ => syntaxErrorResponse e
    | some ⟨s, .ok ()⟩ => successResponse p s

/-- The answer to a request to parse. -/
def parseResponse (fields : Fields) : Response :=
  match readJob fields with
  | .error (.client fault) => reply 400 [
      ("success", .bool false),
      ("error", .text fault.message),
      ("error_type", .text "request_error")]
  | .error (.internal _) => collapse
  | .ok job => jobResponse job

/-- The answer to a request. -/
def respond (endpoint : Endpoint) (request : Datum) : Response :=
  match requestFields? request with
  | none => collapse
  | some fields =>
    match endpoint with
    | .analyzeGrammar => analyzeResponse fields
    | .parseTokens => parseResponse fields

end PredictiveParsing.Service
