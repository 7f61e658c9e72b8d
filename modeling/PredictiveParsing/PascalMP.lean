import PredictiveParsing.Grammar.Names
import PredictiveParsing.Parser

/-!
# The language PascalMP

PascalMP is a small imperative language. Its scanner delivers units of an
enumeration, and each unit but the end marker is the unit of one terminal of
the grammar. The grammar mentions loops over ranges, for which it has no
rules; the reduction removes that alternative.
-/

namespace PredictiveParsing.PascalMP

/-- The lexical units of PascalMP. -/
inductive PascalUnit where
  | beginWord
  | endWord
  | dots
  | variableName
  | assign
  | number
  | leftParenthesis
  | rightParenthesis
  | leftBrace
  | rightBrace
  | minus
  | plus
  | times
  | divide
  | ifWord
  | thenWord
  | elseWord
  | andWord
  | orWord
  | equal
  | smaller
  | whileWord
  | doWord
  | printWord
  | readWord
  | endOfStream
  deriving DecidableEq, Repr

namespace PascalUnit

/-- The units in the order of their declaration. -/
def all : List PascalUnit :=
  [beginWord, endWord, dots, variableName, assign, number, leftParenthesis, rightParenthesis,
    leftBrace, rightBrace, minus, plus, times, divide, ifWord, thenWord, elseWord, andWord, orWord,
    equal, smaller, whileWord, doWord, printWord, readWord, endOfStream]

/-- The name of a unit. -/
def name : PascalUnit → String
  | beginWord => "BEG"
  | endWord => "END"
  | dots => "DOTS"
  | variableName => "VARNAME"
  | assign => "ASSIGN"
  | number => "NUMBER"
  | leftParenthesis => "LPAREN"
  | rightParenthesis => "RPAREN"
  | leftBrace => "LBRACK"
  | rightBrace => "RBRACK"
  | minus => "MINUS"
  | plus => "PLUS"
  | times => "TIMES"
  | divide => "DIVIDE"
  | ifWord => "IF"
  | thenWord => "THEN"
  | elseWord => "ELSE"
  | andWord => "AND"
  | orWord => "OR"
  | equal => "EQUAL"
  | smaller => "SMALLER"
  | whileWord => "WHILE"
  | doWord => "DO"
  | printWord => "PRINT"
  | readWord => "READ"
  | endOfStream => "EOS"

/-- How a unit is spelled as a terminal of the grammar. -/
def spelling : PascalUnit → String
  | beginWord => "begin"
  | endWord => "end"
  | dots => "..."
  | variableName => "[VarName]"
  | assign => ":="
  | number => "[Number]"
  | leftParenthesis => "("
  | rightParenthesis => ")"
  | leftBrace => "\x7b"
  | rightBrace => "\x7d"
  | minus => "-"
  | plus => "+"
  | times => "*"
  | divide => "/"
  | ifWord => "if"
  | thenWord => "then"
  | elseWord => "else"
  | andWord => "and"
  | orWord => "or"
  | equal => "="
  | smaller => "<"
  | whileWord => "while"
  | doWord => "do"
  | printWord => "print"
  | readWord => "read"
  | endOfStream => "$"

/-- The name of the enumeration. -/
def enumeration : String := "LexicalUnit"

/-- A unit as the type of a token. -/
def unit (u : PascalUnit) : LexicalUnit := .member enumeration u.name

/-- The unit of a name. -/
def ofName? (name : String) : Option PascalUnit := all.find? fun u => u.name == name

theorem mem_all (u : PascalUnit) : u ∈ all := by cases u <;> decide

end PascalUnit

/-- The units that terminals have: all but the end marker. -/
def terminalUnits : List PascalUnit :=
  PascalUnit.all.filter fun u => decide (u ≠ .endOfStream)

/-- The units of the terminals by their spelling. -/
def unitMap : UnitMap := terminalUnits.map fun u => (u.spelling, u.unit)

/-- The names of the variables in display order. -/
def variableNames : List String :=
  ["<Program>", "<Code>", "<InstList>", "<EndInstList>", "<Instruction>", "<Assign>",
    "<ExprArith>", "<T>", "<U>", "<If>", "<EndIf>", "<Cond>", "<V>", "<W>", "<SimpleCond>",
    "<Comp>", "<While>", "<Print>", "<Read>"]

/-- The alternatives of the variables by name. -/
def rules : List (String × List (List String)) := [
  ("<Program>", [["begin", "<Code>", "end"]]),
  ("<Code>", [[""], ["<InstList>"]]),
  ("<InstList>", [["<Instruction>"], ["<Instruction>", "...", "<InstList>"]]),
  ("<Instruction>", [["<Assign>"], ["<If>"], ["<While>"], ["<For>"], ["<Print>"], ["<Read>"],
    ["begin", "<InstList>", "end"]]),
  ("<Assign>", [["[VarName]", ":=", "<ExprArith>"]]),
  ("<ExprArith>", [["<ExprArith>", "+", "<T>"], ["<ExprArith>", "-", "<T>"], ["<T>"]]),
  ("<T>", [["<T>", "*", "<U>"], ["<T>", "/", "<U>"], ["<U>"]]),
  ("<U>", [["[VarName]"], ["[Number]"], ["(", "<ExprArith>", ")"], ["-", "<U>"]]),
  ("<If>", [["if", "<Cond>", "then", "<Instruction>", "else"],
    ["if", "<Cond>", "then", "<Instruction>", "else", "<Instruction>"]]),
  ("<Cond>", [["<Cond>", "or", "<V>"], ["<V>"]]),
  ("<V>", [["<V>", "and", "<W>"], ["<W>"]]),
  ("<W>", [["\x7b", "<Cond>", "\x7d"], ["<SimpleCond>"]]),
  ("<SimpleCond>", [["<ExprArith>", "<Comp>", "<ExprArith>"]]),
  ("<Comp>", [["="], ["<"]]),
  ("<While>", [["while", "<Cond>", "do", "<Instruction>"]]),
  ("<Print>", [["print", "(", "[VarName]", ")"]]),
  ("<Read>", [["read", "(", "[VarName]", ")"]])]

/-- The components of the grammar, with programs as the start symbol. -/
def components : Components :=
  Grammar.componentsOfNames variableNames (terminalUnits.map PascalUnit.spelling) rules
    "<Program>" (some variableNames)

/-- The grammar of PascalMP before reduction. -/
def grammar : Grammar := ⟨components, by decide +kernel⟩

end PredictiveParsing.PascalMP
