/-!
# Escaping for the output formats

Each output format reserves some characters. A format's escaping is a chain
of replacements of single characters over the whole text. The character
that the replacements themselves bring in comes first in its chain, so that
no later replacement changes an earlier one.
-/

namespace PredictiveParsing.Text

/-- A text with every occurrence of one character replaced by a text. -/
def replaceChar (c : Char) (replacement : String) (s : List Char) : List Char :=
  s.flatMap fun d => if d = c then replacement.toList else [d]

/-- The reserved characters of markup as entities, with the entity that
stands for the apostrophe. -/
def markupChars (apostrophe : String) (s : List Char) : List Char :=
  replaceChar '\'' apostrophe <| replaceChar '"' "&quot;" <| replaceChar '>' "&gt;" <|
    replaceChar '<' "&lt;" <| replaceChar '&' "&amp;" s

/-- Text shown inside the reports: the apostrophe is written by its
hexadecimal number. -/
def escapeMarkup (s : String) : String := String.ofList (markupChars "&#x27;" s.toList)

/-- Text shown inside the messages of failed requests: the apostrophe is
written by its decimal number. -/
def escapeMessage (s : String) : String := String.ofList (markupChars "&#039;" s.toList)

/-- The inside of a quoted label of a graph description: backslash, double
quote and line feed stand behind a backslash. -/
def dotChars (s : List Char) : List Char :=
  replaceChar '\n' "\\n" <| replaceChar '"' "\\\"" <| replaceChar '\\' "\\\\" s

/-- A label or title of a graph description. -/
def escapeDot (s : String) : String := String.ofList (dotChars s.toList)

/-- How one character is typeset: the characters with a meaning of their own
become commands, and square brackets, which delimit the nodes of a tree,
are put into a group. -/
def typesetChar : Char → String
  | '\\' => "\\textbackslash\x7b\x7d"
  | '\x7b' => "\\\x7b"
  | '\x7d' => "\\\x7d"
  | '$' => "\\$"
  | '&' => "\\&"
  | '#' => "\\#"
  | '%' => "\\%"
  | '_' => "\\_"
  | '^' => "\\^\x7b\x7d"
  | '~' => "\\~\x7b\x7d"
  | '<' => "\\textless\x7b\x7d"
  | '>' => "\\textgreater\x7b\x7d"
  | '[' => "\x7b[\x7d"
  | ']' => "\x7b]\x7d"
  | c => String.ofList [c]

/-- A text as it is typeset. -/
def typesetChars (s : List Char) : List Char := s.flatMap fun c => (typesetChar c).toList

/-- A label of a typeset tree. -/
def escapeTypeset (s : String) : String := String.ofList (typesetChars s.toList)

@[simp] theorem replaceChar_nil (c : Char) (r : String) : replaceChar c r [] = [] := rfl

theorem replaceChar_append (c : Char) (r : String) (s t : List Char) :
    replaceChar c r (s ++ t) = replaceChar c r s ++ replaceChar c r t := by
  simp [replaceChar]

/-- A text without the character is left as it is. -/
theorem replaceChar_of_not_mem {c : Char} {r : String} {s : List Char} (h : c ∉ s) :
    replaceChar c r s = s := by
  induction s with
  | nil => rfl
  | cons d rest ih =>
    simp only [List.mem_cons, not_or] at h
    have := ih h.2
    have hd : d ≠ c := fun e => h.1 e.symm
    simp only [replaceChar] at this
    simp [replaceChar, this, hd]

end PredictiveParsing.Text
