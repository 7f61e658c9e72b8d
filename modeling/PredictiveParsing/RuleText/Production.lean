import PredictiveParsing.Grammar.Names
import PredictiveParsing.RuleText.Comments
import PredictiveParsing.RuleText.Lexeme

/-!
# Reading grammars from text

A text is freed from comments and cut into lines, and the lines are divided
into blocks by semicolons. In a block, a line that starts with a head and an
arrow starts a production, and any other line continues the production
before it. The right-hand side is cut at the bars into alternatives; an
alternative that is blank or one of the spellings of the empty string is the
empty string, any other is a list of names.

The heads are the variables of the grammar, in the order of their first
appearance; a head that appears again adds its alternatives to the earlier
ones. The first head is the start symbol unless another one is asked for.
-/

namespace PredictiveParsing.RuleText

open Text

/-- One production: a head with its alternatives, all by name. -/
structure Production where
  /-- The name before the arrow. -/
  head : String
  /-- The names of each alternative. -/
  alternatives : List (List String)
  deriving DecidableEq, Repr

/-- Lines put together into one text per production; `current` is the text
of the production that is being continued, if there is one. -/
def groupLines (current : Option (List Char)) :
    List (List Char) → Except GrammarFault (List (List Char))
  | [] => .ok current.toList
  | line :: rest =>
    if (splitHead? line).isSome then
      (groupLines (some line) rest).map (current.toList ++ ·)
    else match current with
      | some text => groupLines (some (text ++ ' ' :: line)) rest
      | none => .error (.strayLine (String.ofList line))

/-- The texts of the productions of a block. -/
def blockProductions (block : List Char) : Except GrammarFault (List (List Char)) :=
  groupLines none (((pieces '\n' (trim block)).map trim).filter fun line => !line.isEmpty)

/-- The texts of the productions of several blocks. -/
def allProductions : List (List Char) → Except GrammarFault (List (List Char))
  | [] => .ok []
  | block :: rest => do
    let first ← blockProductions block
    let others ← allProductions rest
    pure (first ++ others)

/-- The spellings of the empty string as an alternative of its own. -/
def emptySpellings : List (List Char) := ["".toList, "e".toList, "ε".toList, "epsilon".toList]

/-- The names of an alternative; the empty string has the empty name. -/
def alternativeNames (s : List Char) : List String :=
  if trim s ∈ emptySpellings then [""] else (names (trim s)).map String.ofList

/-- The production that a text describes. -/
def production? (s : List Char) : Option Production :=
  (splitHead? s).map fun (head, body) =>
    ⟨String.ofList head, (pieces '|' body).map alternativeNames⟩

/-- The productions that a text describes, at least one. -/
def readProductions (s : String) : Except GrammarFault (List Production) := do
  let cleaned := joinWith ['\n'] (contentLines s.toList)
  let texts ← allProductions (pieces ';' cleaned)
  match texts.filterMap production? with
  | [] => .error .noProductions
  | productions => .ok productions

/-- The heads of productions in the order of their first appearance. -/
def heads (productions : List Production) : List String :=
  (productions.map Production.head).eraseDups

/-- The alternatives of a head, from all of its productions. -/
def alternativesOf (productions : List Production) (head : String) : List (List String) :=
  (productions.filter fun p => p.head == head).flatMap Production.alternatives

/-- The names in alternatives that are neither heads nor the empty string. -/
def terminalNames (productions : List Production) : List String :=
  (productions.flatMap fun p => p.alternatives.flatten).filter fun name =>
    decide (name ∉ heads productions ∧ name ∉ epsilonNames)

/-- The grammar of some productions with a given start symbol, or with the
first head as start symbol. -/
def grammarOf (productions : List Production) (start : Option String) :
    Except GrammarFault Grammar :=
  let vars := heads productions
  let startName := start.getD (vars.headD "")
  if startName ∈ vars then
    Grammar.ofNames vars (terminalNames productions)
      (vars.map fun head => (head, alternativesOf productions head)) startName
      (some vars)
  else .error (.startWithoutProductions startName)

/-- The grammar that a text describes. -/
def read (text : String) (start : Option String) : Except GrammarFault Grammar := do
  let productions ← readProductions text
  grammarOf productions start

end PredictiveParsing.RuleText
