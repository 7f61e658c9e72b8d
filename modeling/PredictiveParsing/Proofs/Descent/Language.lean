import PredictiveParsing.Proofs.Descent.Recognition
import PredictiveParsing.Proofs.Reduction.NormalForm

/-!
# The sentences of a grammar and its parser

A parser is made for a grammar and reads by the reduced one. The reduction
keeps the sentences, so that what is recognised by the reduced grammar are the
sentences that one began with. A table without conflicts is not enough for
this. The FOLLOW sets leave out the start symbol and look at one symbol only,
so that the table may lack an alternative; and a selection looks only at the
leading symbol of an alternative. Where the table is complete and leading
symbols stay, no sentence is rejected.
-/

namespace PredictiveParsing

namespace Grammar

/-- Round brackets inside each other: the start symbol stands in a body. -/
def brackets : Grammar :=
  ⟨componentsOfNames ["S"] ["(", ")"] [("S", [["(", "S", ")"], ["epsilon"]])] "S" none,
    by decide +kernel⟩

theorem brackets_closed : brackets.Closed := closed_of_componentsOfNames rfl

/-- A command with three options: the last one can follow the first one, with
the second one between them left out. -/
def options : Grammar :=
  ⟨componentsOfNames ["S", "A", "B", "C"] ["x", "a", "b", "c"]
    [("S", [["x", "A", "B", "C"]]), ("A", [["a"], ["epsilon"]]), ("B", [["b"], ["epsilon"]]),
      ("C", [["c"], ["epsilon"]])] "S" none,
    by decide +kernel⟩

theorem options_closed : options.Closed := closed_of_componentsOfNames rfl

end Grammar

namespace Parser

/-- A closed grammar has no conflicts after the reduction, and of the names of
one of its sentences, with a name that is no terminal behind them, the parser
makes an error. -/
def RejectsSentence (g : Grammar) (names : List String) : Prop :=
  g.Closed ∧ g.Sentence (names.map .terminal) ∧
    (∀ t ∈ g.terminals, LexicalUnit.named "end" ≠ .named t.name) ∧
    ∃ p o e, make {} g none (Token.ofNames (names ++ ["end"])) = .ok p ∧ p.isLL 1 = true ∧
      p.parse = some o ∧ o.result = .error e

/-- A run tells of an error. -/
theorem rejectsSentence_of_run {g : Grammar} {names : List String} (hg : g.Closed)
    (hy : Yields g.rulesOf [g.start] (names.map .terminal))
    (hd : ∀ t ∈ names.map Symbol.terminal, t ∈ g.terminals)
    (hend : ∀ t ∈ g.terminals, LexicalUnit.named "end" ≠ .named t.name)
    (hrun : ((make {} g none (Token.ofNames (names ++ ["end"]))).toOption.bind fun p =>
      some (p.isLL 1, p.parse.map fun o => o.result.toOption)) = some (true, some none)) :
    RejectsSentence g names := by
  obtain ⟨p, hmake, hp⟩ := exists_of_make_bind hrun
  obtain ⟨hll, hparse⟩ := Prod.mk.inj (Option.some.inj hp)
  obtain ⟨o, ho, hresult⟩ := Option.map_eq_some_iff.mp hparse
  refine ⟨hg, hg.sentence_iff.mpr ⟨hy, hd⟩, hend, p, o, ?_⟩
  cases he : o.result with
  | error e => exact ⟨e, hmake, hll, ho, rfl⟩
  | ok u =>
    rw [he] at hresult
    cases hresult

end Parser

end PredictiveParsing
