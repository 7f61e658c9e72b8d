import PredictiveParsing.Text.Blank

/-!
# Comments in the text of a grammar

Two slashes begin a comment that ends with its line. After these, the
comments from a slash and a star to the next star and slash are taken out;
such a comment may extend over lines. An opening that is never closed is no
comment and stays in the text. Nothing is put in the place of a comment.
-/

namespace PredictiveParsing.RuleText

open Text

/-- A line up to the first two slashes. -/
def cutLineComment : List Char → List Char
  | '/' :: '/' :: _ => []
  | c :: rest => c :: cutLineComment rest
  | [] => []

/-- A text without the comments that end with their lines. -/
def dropLineComments (s : List Char) : List Char :=
  joinWith ['\n'] ((pieces '\n' s).map cutLineComment)

/-- Whether a star and a slash follow each other somewhere. -/
def closes : List Char → Bool
  | '*' :: '/' :: _ => true
  | _ :: rest => closes rest
  | [] => false

/-- A text without its closed comments; `inside` tells that the text begins
within a comment. -/
def dropBlocks : (inside : Bool) → List Char → List Char
  | true, '*' :: '/' :: rest => dropBlocks false rest
  | true, _ :: rest => dropBlocks true rest
  | false, '/' :: '*' :: rest =>
    if closes rest then dropBlocks true rest else '/' :: '*' :: rest
  | false, c :: rest => c :: dropBlocks false rest
  | _, [] => []

/-- A text without comments. -/
def dropComments (s : List Char) : List Char := dropBlocks false (dropLineComments s)

/-- The lines of a text without comments: trimmed, and not blank. -/
def contentLines (s : List Char) : List (List Char) :=
  ((pieces '\n' (dropComments s)).map trim).filter fun line => !line.isEmpty

end PredictiveParsing.RuleText
