/-!
# Padding and joining of output texts

Columns of a listing are aligned by spaces on the left or on the right;
widths count characters. Lists of texts are put together with a text
between neighbours.
-/

namespace PredictiveParsing.Text

/-- A run of spaces. -/
def spaces (count : Nat) : String := String.ofList (List.replicate count ' ')

/-- A text set to the right of a column, with spaces before it. -/
def padLeft (width : Nat) (s : String) : String := spaces (width - s.length) ++ s

/-- A text set to the left of a column, with spaces after it. -/
def padRight (width : Nat) (s : String) : String := s ++ spaces (width - s.length)

/-- The texts of a list with a separator between neighbours. -/
def join (separator : String) : List String → String
  | [] => ""
  | [s] => s
  | s :: rest => s ++ separator ++ join separator rest

/-- The texts of a list on lines of their own. -/
def lines (texts : List String) : String := join "\n" texts

theorem length_spaces (count : Nat) : (spaces count).length = count := by
  simp [spaces]

/-- A padded text fills its column, unless it is wider than that. -/
theorem length_padLeft (width : Nat) (s : String) :
    (padLeft width s).length = max width s.length := by
  simp only [padLeft, String.length_append, length_spaces]; omega

theorem length_padRight (width : Nat) (s : String) :
    (padRight width s).length = max width s.length := by
  simp only [padRight, String.length_append, length_spaces]; omega

end PredictiveParsing.Text
