import PredictiveParsing.Proofs.Text.Escape
import PredictiveParsing.Report.Parse

/-!
# Markup in reports on syntax errors

Which angle brackets a report on a syntax error has. An escaped text has none,
and the brackets of a report are those of its parts in their order. So what is
escaped leaves no trace in them: they come from the template of the class of
the error, and from the line and the column of the token, which are displayed
as the client gave them.
-/

namespace PredictiveParsing

namespace Text

/-- The angle brackets of a text, in their order. -/
def angles (s : String) : List Char := s.toList.filter fun c => c == '<' || c == '>'

@[simp] theorem angles_append (s t : String) : angles (s ++ t) = angles s ++ angles t := by
  rw [angles, String.toList_append, List.filter_append]
  rfl

theorem angles_eq_nil_iff {s : String} : angles s = [] ↔ '<' ∉ s.toList ∧ '>' ∉ s.toList := by
  rw [angles, List.filter_eq_nil_iff]
  constructor
  · exact fun h => ⟨fun hmem => h _ hmem rfl, fun hmem => h _ hmem rfl⟩
  · rintro ⟨hopen, hclose⟩ c hc hangle
    rcases Bool.or_eq_true_iff.mp hangle with heq | heq
    · exact hopen (beq_iff_eq.mp heq ▸ hc)
    · exact hclose (beq_iff_eq.mp heq ▸ hc)

/-- Line feeds between texts add no angle brackets. -/
theorem angles_lines (texts : List String) : angles (lines texts) = texts.flatMap angles := by
  rw [lines]
  induction texts with
  | nil => rfl
  | cons s rest ih =>
    cases rest with
    | nil => simp [join]
    | cons next rest =>
      have hbreak : angles "\n" = [] := by decide
      rw [List.flatMap_cons, ← ih, join, angles_append, angles_append, hbreak, List.append_nil]
      exact List.cons_ne_nil _ _

/-- An escaped text has no angle brackets: both are replaced, and what they
are replaced by is not touched again. -/
@[simp] theorem angles_escapeMarkup (s : String) : angles (escapeMarkup s) = [] := by
  rw [angles_eq_nil_iff, escapeMarkup, String.toList_ofList, markupChars]
  constructor
  · refine notMem_replaceChar_of_notMem (by decide) (notMem_replaceChar_of_notMem (by decide) ?_)
    exact notMem_replaceChar_of_notMem (by decide) (notMem_replaceChar (by decide) _)
  · refine notMem_replaceChar_of_notMem (by decide) (notMem_replaceChar_of_notMem (by decide) ?_)
    exact notMem_replaceChar (by decide) _

end Text

/-- A number, a switch or no value is displayed without angle brackets. -/
theorem Datum.angles_display {d : Datum} (hscalar : d.isScalar = true) (htext : ∀ s, d ≠ .text s) :
    Text.angles d.display = [] := by
  have hnat : ∀ n : Nat, Text.angles (toString n) = [] := fun n => by
    rw [Text.angles_eq_nil_iff, Nat.toString_eq_repr, Nat.toList_repr]
    exact ⟨Text.notMem_toDigits (by decide) n, Text.notMem_toDigits (by decide) n⟩
  cases d with
  | null => decide
  | bool b => cases b <;> decide
  | int n =>
    cases n with
    | ofNat n => exact hnat n
    | negSucc n => exact (Text.angles_append "-" (toString (n + 1))).trans (hnat (n + 1))
  | text s => exact absurd rfl (htext s)
  | list items => cases hscalar
  | object fields => cases hscalar

namespace SyntaxError

/-- The classes of syntax errors. -/
inductive Kind where
  /-- A terminal does not match the token. -/
  | mismatch
  /-- No alternative of a variable accepts the token. -/
  | noProduction
  /-- Another cause. -/
  | other
  deriving DecidableEq

/-- The class of an error. -/
def kind : SyntaxError → Kind
  | mismatch _ _ => .mismatch
  | noProduction _ _ _ => .noProduction
  | other _ _ => .other

end SyntaxError

namespace Report

open Text

/-- The angle brackets of the template for what was expected. -/
def expectationAngles : SyntaxError.Kind → List Char
  | .mismatch => angles "<p><strong>Expected:</strong> " ++ angles "</p>"
  | .noProduction => angles "<p><strong>While parsing:</strong> " ++ angles "</p>" ++
      angles "<p><strong>Acceptable:</strong> " ++ angles "</p>"
  | .other => []

/-- The angle brackets of the template up to the place of the token. -/
def openingAngles (style : Style) (kind : SyntaxError.Kind) : List Char :=
  angles ("<div class=\"" ++ style.errorClasses ++ "\">") ++ angles "<h4>Syntax Error</h4>" ++
    expectationAngles kind ++ angles "<p><strong>Found:</strong> " ++ angles " <code>" ++
    angles "</code> at line "

/-- The angle brackets of the template behind the place of the token. -/
def closingAngles : List Char := angles "</p>" ++ angles "</div>"

/-- The angle brackets of the place of a token as it is displayed. -/
def placeAngles (token : Token) : List Char :=
  angles token.line.display ++ angles token.column.display

/-- What was expected brings no angle brackets into a report. -/
theorem angles_expectation (e : SyntaxError) :
    (expectation e).flatMap angles = expectationAngles e.kind := by
  cases e with
  | mismatch expected token => simp [expectation, SyntaxError.kind, expectationAngles]
  | noProduction head acceptable token =>
    simp [expectation, SyntaxError.kind, expectationAngles]
  | other reason token => rfl

/-- The angle brackets of a report: those of the template, and those of the
place between them. -/
theorem angles_syntaxError (style : Style) (e : SyntaxError) :
    angles (syntaxError style e) =
      openingAngles style e.kind ++ (placeAngles e.token ++ closingAngles) := by
  have hcolumn : angles ", column " = [] := by decide
  rw [syntaxError, angles_lines]
  simp [angles_expectation, openingAngles, placeAngles, closingAngles, hcolumn]

/-- A place that is given by numbers, switches or no values. -/
structure PlainPlace (token : Token) : Prop where
  /-- The line has no parts. -/
  line_isScalar : token.line.isScalar = true
  /-- The line is no text. -/
  line_ne_text : ∀ s, token.line ≠ .text s
  /-- The column has no parts. -/
  column_isScalar : token.column.isScalar = true
  /-- The column is no text. -/
  column_ne_text : ∀ s, token.column ≠ .text s

/-- A plain place has no angle brackets. -/
theorem PlainPlace.placeAngles_eq {token : Token} (h : PlainPlace token) :
    placeAngles token = [] := by
  rw [placeAngles, Datum.angles_display h.line_isScalar h.line_ne_text,
    Datum.angles_display h.column_isScalar h.column_ne_text, List.append_nil]

/-- Two reports in a style on errors of a class have the same angle brackets
exactly if the places of the tokens are displayed with the same ones, whatever
else the errors hold: the expected and the acceptable units, the variable, and
the type and the value of the token bring none. So they have the same ones when
both places are plain. -/
theorem angles_syntaxError_eq_iff (style : Style) {e f : SyntaxError} (h : e.kind = f.kind) :
    (angles (syntaxError style e) = angles (syntaxError style f) ↔
      placeAngles e.token = placeAngles f.token) ∧
    (PlainPlace e.token → PlainPlace f.token →
      angles (syntaxError style e) = angles (syntaxError style f)) := by
  have hsame : angles (syntaxError style e) = angles (syntaxError style f) ↔
      placeAngles e.token = placeAngles f.token := by
    rw [angles_syntaxError, angles_syntaxError, h, List.append_cancel_left_eq,
      List.append_cancel_right_eq]
  refine ⟨hsame, fun he hf => hsame.mpr ?_⟩
  rw [he.placeAngles_eq, hf.placeAngles_eq]

/-- A token at the end of a stream where a block should be closed. -/
def unclosed : SyntaxError := .mismatch (.named "END") ⟨.named "EOS", .text "$", .int 3, .int 1⟩

/-- The same with tags in the units and in the value. -/
def unclosedTags : SyntaxError :=
  .mismatch (.named "<END>") ⟨.named "<EOS>", .text "</code>", .int 3, .null⟩

/-- The same with a tag for a line. -/
def unclosedTagLine : SyntaxError :=
  .mismatch (.named "END") ⟨.named "EOS", .text "$", .text "<b>", .int 1⟩

/-- Tags in the units and in the value are shown as text. -/
theorem angles_syntaxError_eq_iff_tags :
    unclosedTags.kind = unclosed.kind ∧
    ((angles (syntaxError {} unclosedTags) = angles (syntaxError {} unclosed) ↔
        placeAngles unclosedTags.token = placeAngles unclosed.token) ∧
      (PlainPlace unclosedTags.token → PlainPlace unclosed.token →
        angles (syntaxError {} unclosedTags) = angles (syntaxError {} unclosed))) ∧
    PlainPlace unclosedTags.token ∧ PlainPlace unclosed.token ∧
    syntaxError {} unclosedTags = lines [
      "<div class=\"error-message\">", "<h4>Syntax Error</h4>",
      "<p><strong>Expected:</strong> &lt;END&gt;</p>",
      "<p><strong>Found:</strong> &lt;EOS&gt; <code>&lt;/code&gt;</code> at line 3, column None</p>",
      "</div>"] := by
  refine ⟨rfl, angles_syntaxError_eq_iff {} rfl, ?_, ?_, by decide +kernel⟩
  · exact ⟨rfl, fun _ h => (nomatch h), rfl, fun _ h => (nomatch h)⟩
  · exact ⟨rfl, fun _ h => (nomatch h), rfl, fun _ h => (nomatch h)⟩

/-- A tag for a line is shown as a tag: errors of a class do not have the same
angle brackets in general. -/
theorem angles_syntaxError_ne :
    ¬∀ (style : Style) (e f : SyntaxError), e.kind = f.kind →
      angles (syntaxError style e) = angles (syntaxError style f) := by
  intro h
  have hsame := h {} unclosedTagLine unclosed rfl
  rw [angles_syntaxError, angles_syntaxError] at hsame
  have hplace := List.append_cancel_right (List.append_cancel_left hsame)
  exact absurd hplace (by decide)

end Report

end PredictiveParsing
