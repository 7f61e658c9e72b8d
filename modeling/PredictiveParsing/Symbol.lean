import PredictiveParsing.Text.Layout
import PredictiveParsing.Text.Quoted

/-!
# Grammar symbols

A symbol is the empty string, a terminal or a nonterminal; symbols are
equal when kind and name are. Their order, by kind and then by name, serves
the canonical form of symbol sets and the order of answers; it has no
meaning for a grammar.
-/

namespace PredictiveParsing

/-- A symbol of a grammar. -/
inductive Symbol where
  /-- The empty string, which stands alone in a rule body. -/
  | epsilon
  /-- A symbol that is matched with tokens. -/
  | terminal (name : String)
  /-- A symbol that is expanded by rules. -/
  | nonterminal (name : String)
  deriving DecidableEq, Repr, Inhabited

/-- A rule body, read from left to right. -/
abbrev Body := List Symbol

/-- The body that derives the empty string. -/
def epsilonBody : Body := [.epsilon]

/-- Whether a body is one of several. -/
def Body.among (body : Body) (bodies : List Body) : Bool := decide (body ∈ bodies)

@[simp] theorem Body.among_iff {body : Body} {bodies : List Body} :
    Body.among body bodies = true ↔ body ∈ bodies := by
  simp [Body.among]

namespace Symbol

/-- The name of a symbol; that of the empty string is empty. -/
def name : Symbol → String
  | epsilon => ""
  | terminal n => n
  | nonterminal n => n

/-- Whether a symbol is of the kind that tokens match. -/
def isTerminal : Symbol → Bool
  | terminal _ => true
  | _ => false

/-- Whether a symbol is of the kind that rules expand. -/
def isNonterminal : Symbol → Bool
  | nonterminal _ => true
  | _ => false

/-- Whether a symbol is the empty string. -/
def isEpsilon : Symbol → Bool
  | epsilon => true
  | _ => false

@[simp] theorem isEpsilon_iff {s : Symbol} : s.isEpsilon = true ↔ s = epsilon := by
  cases s <;> simp [isEpsilon]

/-- Nonterminals are told by their names. -/
theorem isNonterminal_iff {s : Symbol} : s.isNonterminal = true ↔ ∃ n, s = nonterminal n := by
  cases s <;> simp [isNonterminal]

/-- How a symbol is shown in listings. -/
def text : Symbol → String
  | epsilon => "epsilon"
  | terminal n => n
  | nonterminal n => n

/-- How a symbol is named when it is missing from a table: its kind, and its
name in quotation marks. -/
def description : Symbol → String
  | epsilon => "EPSILON"
  | terminal n => "terminal(" ++ Text.quote n ++ ")"
  | nonterminal n => "variable(" ++ Text.quote n ++ ")"

/-- The place of a symbol's kind in the order of symbols. -/
def rank : Symbol → Nat
  | epsilon => 0
  | terminal _ => 1
  | nonterminal _ => 2

/-- Kind and name determine a symbol. -/
theorem eq_of_rank_name {a b : Symbol} (hr : a.rank = b.rank) (hn : a.name = b.name) : a = b := by
  cases a <;> cases b <;> simp_all [rank, name]

instance : LT Symbol := ⟨fun a b => a.rank < b.rank ∨ (a.rank = b.rank ∧ a.name < b.name)⟩

theorem lt_def {a b : Symbol} :
    a < b ↔ a.rank < b.rank ∨ (a.rank = b.rank ∧ a.name < b.name) := Iff.rfl

instance (a b : Symbol) : Decidable (a < b) := decidable_of_iff _ lt_def.symm

theorem lt_irrefl (a : Symbol) : ¬a < a := by
  simp only [lt_def, not_or, not_and]
  exact ⟨Nat.lt_irrefl _, fun _ => String.lt_irrefl _⟩

theorem lt_trans {a b c : Symbol} (hab : a < b) (hbc : b < c) : a < c := by
  simp only [lt_def] at *
  rcases hab with hab | ⟨hab, nab⟩ <;> rcases hbc with hbc | ⟨hbc, nbc⟩
  · exact Or.inl (Nat.lt_trans hab hbc)
  · exact Or.inl (hbc ▸ hab)
  · exact Or.inl (hab ▸ hbc)
  · exact Or.inr ⟨hab.trans hbc, String.lt_trans nab nbc⟩

/-- Of two different symbols one precedes the other. -/
theorem lt_of_not_lt_of_ne {a b : Symbol} (h : ¬a < b) (hne : a ≠ b) : b < a := by
  simp only [lt_def, not_or, not_and] at *
  obtain ⟨hr, hn⟩ := h
  by_cases he : a.rank = b.rank
  · refine Or.inr ⟨he.symm, ?_⟩
    have hle : b.name ≤ a.name := String.not_lt.mp (hn he)
    refine Decidable.byContradiction fun hc => hne ?_
    exact eq_of_rank_name he (String.le_antisymm (String.not_lt.mp hc) hle)
  · exact Or.inl (by omega)

end Symbol

/-- A rule body as it is shown: its symbols with spaces between them. -/
def bodyText (body : Body) : String := Text.join " " (body.map Symbol.text)

end PredictiveParsing
