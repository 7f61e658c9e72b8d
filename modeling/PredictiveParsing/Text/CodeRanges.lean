/-!
# Classes of characters given by ranges of code points

A class that a standard lists is held as the ascending list of its closed
intervals of code points, and membership is a search that stops at the
first interval beyond the character.
-/

namespace PredictiveParsing.Text

/-- Whether a code point lies in one of the closed intervals, which are
listed in ascending order. -/
def inRanges : List (Nat × Nat) → Nat → Bool
  | [], _ => false
  | (low, high) :: rest, code =>
    if code < low then false else if code ≤ high then true else inRanges rest code

theorem inRanges_nil (code : Nat) : inRanges [] code = false := rfl

/-- A code point before the first interval belongs to none. -/
theorem inRanges_of_lt {low high code : Nat} (rest : List (Nat × Nat)) (h : code < low) :
    inRanges ((low, high) :: rest) code = false := by
  simp [inRanges, h]

end PredictiveParsing.Text
