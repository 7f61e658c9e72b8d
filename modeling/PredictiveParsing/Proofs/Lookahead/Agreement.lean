import PredictiveParsing.Proofs.Grammar.Names
import PredictiveParsing.Proofs.Lookahead.Selection
import PredictiveParsing.Proofs.Reduction.Stages

/-!
# Selection and the action table

A parser selects by its FIRST and FOLLOW sets, and its action table is made
from the same sets. Whatever it selects is in a cell of its table, even if there
are conflicts or several terminals have one unit; only the empty string may be
selected at the end of the stream without being there. Where the table has no
conflicts, what is selected for a terminal is what its cell holds. The converse
needs a condition: the scan that fills the table goes on behind a symbol that can
vanish, whereas a selection looks at the leading symbol of an alternative only. So
an alternative that begins with a symbol that can vanish may stand in a cell and
not be selected.
-/

namespace PredictiveParsing

namespace Grammar

/-- A terminal that is declared or stands in a body. -/
def HasTerminal (g : Grammar) (t : Symbol) : Prop :=
  t.isTerminal = true ∧ (t ∈ g.terminals ∨ g.Occurs t)

/-- No alternative of a variable other than the empty string begins with a
symbol that can vanish, as far as the FIRST sets tell. -/
def StartsFirmly (g : Grammar) (a : Symbol) : Prop :=
  ∀ body ∈ g.rulesOf a, body ≠ epsilonBody → ∀ x ∈ body.head?,
    .epsilon ∉ g.firstTable.lookup x

instance (g : Grammar) (a : Symbol) : Decidable (g.StartsFirmly a) :=
  inferInstanceAs (Decidable (∀ body ∈ g.rulesOf a, body ≠ epsilonBody → ∀ x ∈ body.head?,
    .epsilon ∉ g.firstTable.lookup x))

/-- Lists of `x` with the last one to the right, and the empty list. -/
def lists : Grammar :=
  ⟨componentsOfNames ["A"] ["x"] [("A", [["A", "x"], ["epsilon"]])] "A" none, by decide +kernel⟩

theorem lists_closed : lists.Closed := closed_of_componentsOfNames rfl

end Grammar

namespace Parser

variable {p : Parser} {a t : Symbol} {body : Body}

namespace Unequivocal

/-- What is selected for a terminal is in the cell of the terminal. -/
theorem mem_cell_of_select (d : p.Unequivocal)
    (hsame : ∀ u, p.grammar.HasTerminal u → p.unitOf u = p.unitOf t → u = t)
    (hend : p.unitOf t ≠ p.stream.endUnit) {i : Nat} (hi : p.select a (p.unitOf t) = some i)
    (hget : (p.grammar.rulesOf a)[i]? = some body) : body ∈ p.table.cell a t := by
  rcases mem_cell_or_end_of_select d.closed d.table_eq hi hget with hcell | ⟨-, hunit⟩
  · obtain ⟨u, hterminal, hoccurs, hunit, hmem⟩ := hcell
    rw [hsame u ⟨hterminal, .inr hoccurs⟩ hunit] at hmem
    exact hmem
  · exact absurd hunit hend

/-- Of a variable whose alternatives do not begin with symbols that can vanish
an alternative in a cell is selected. -/
theorem exists_select_of_mem_cell (d : p.Unequivocal) (hfirm : p.grammar.StartsFirmly a)
    (h : body ∈ p.table.cell a t) :
    ∃ i, p.select a (p.unitOf t) = some i ∧ (p.grammar.rulesOf a)[i]? = some body := by
  rw [d.table_eq] at h
  obtain ⟨hb, ht⟩ := ActionTable.mem_cell_iff.mp h
  by_cases hne : body = epsilonBody
  · rw [hne] at hb ht
    have hfollow : t ∈ p.grammar.followTable.members a :=
      d.closed.mem_predictors_epsilonBody.mp ht
    obtain ⟨-, hempty, -⟩ := d.closed.followSets.mem_members hfollow
    rw [← d.follow_eq] at hfollow
    rw [hne]
    exact select_of_follow hb (meets_iff.mpr ⟨t, hfollow, hempty, rfl⟩)
  · cases hx : body.head? with
    | none => exact absurd (List.head?_eq_none_iff.mp hx) (p.grammar.valid.proper a body hb).ne_nil
    | some x =>
      have hstays : .epsilon ∉ (Lookahead.ofGrammar p.grammar).firstOf x :=
        hfirm body hb hne x hx
      obtain ⟨hlookup, hempty⟩ := mem_first_of_predictors hx hstays ht
      exact d.select_leading hb hx hlookup hempty

end Unequivocal

/-- Whatever a parser selects for a unit is justified by its table, with
conflicts or without, and whatever the units of the terminals are: the selected
alternative is in the cell of a terminal with that unit, or it is the empty
string and the unit is that of the end marker. -/
theorem make_select_justified {settings : Settings} {g : Grammar} {units : Option UnitMap}
    {tokens : List Token} {p : Parser} (hg : g.Closed)
    (hp : make settings g units tokens = .ok p) {a : Symbol} {unit : LexicalUnit} {i : Nat}
    (hi : p.select a unit = some i) :
    ∃ body, (p.grammar.rulesOf a)[i]? = some body ∧
      ((∃ t, p.grammar.HasTerminal t ∧ p.unitOf t = unit ∧ body ∈ p.table.cell a t) ∨
        body = epsilonBody ∧ unit = p.stream.endUnit) := by
  have hmade := made_of_make hp
  have hclosed : p.grammar.Closed := (hg.reduce hmade.reduced).1
  obtain ⟨body, hget⟩ := exists_body_of_select hi
  refine ⟨body, hget, ?_⟩
  rcases mem_cell_or_end_of_select hclosed hmade.table_eq hi hget with hcell | hend
  · obtain ⟨t, hterminal, hoccurs, hunit, hmem⟩ := hcell
    exact .inl ⟨t, ⟨hterminal, .inr hoccurs⟩, hunit, hmem⟩
  · exact .inr hend

/-- The parser of labelled conditionals has a conflict on the second branch. Its
units are those of a map that mentions one terminal only. Its choice for the unit
of that terminal is in a cell all the same. -/
theorem make_select_justified_labelledConditionals :
    Grammar.labelledConditionals.Closed ∧
    ∃ p i, make {} Grammar.labelledConditionals (some [("else", .member "Unit" "ELSE")])
        (Token.ofNames ["act", "end"]) = .ok p ∧ p.isLL 1 = false ∧
      p.select (.nonterminal "E") (.member "Unit" "ELSE") = some i ∧
      ∃ body, (p.grammar.rulesOf (.nonterminal "E"))[i]? = some body ∧
        ((∃ t, p.grammar.HasTerminal t ∧ p.unitOf t = .member "Unit" "ELSE" ∧
          body ∈ p.table.cell (.nonterminal "E") t) ∨
        body = epsilonBody ∧ .member "Unit" "ELSE" = p.stream.endUnit) := by
  have hrun : ((make {} Grammar.labelledConditionals (some [("else", .member "Unit" "ELSE")])
      (Token.ofNames ["act", "end"])).toOption.bind fun p =>
        (p.select (.nonterminal "E") (.member "Unit" "ELSE")).map fun i => (p.isLL 1, i)) =
      some (false, 1) := by
    decide +kernel
  obtain ⟨p, hmake, hp⟩ := exists_of_make_bind hrun
  obtain ⟨i, hi, hpair⟩ := Option.map_eq_some_iff.mp hp
  exact ⟨Grammar.labelledConditionals_closed, p, i, hmake, (Prod.mk.inj hpair).1, hi,
    make_select_justified Grammar.labelledConditionals_closed hmake hi⟩

/-- A parser whose table has no conflicts and whose units tell the terminals
of its grammar apart selects for a terminal, unless its unit marks the end of
the stream, nothing but what the cell of the terminal holds. If no alternative
of the variable begins with a symbol that can vanish, it selects something
wherever the cell holds something. -/
theorem make_select_agrees {settings : Settings} {g : Grammar} {units : Option UnitMap}
    {tokens : List Token} {p : Parser} (hg : g.Closed)
    (hp : make settings g units tokens = .ok p) (hll : p.isLL 1 = true)
    (hinjective : ∀ t u, p.grammar.HasTerminal t → p.grammar.HasTerminal u →
      p.unitOf t = p.unitOf u → t = u) {a t : Symbol} (ht : p.grammar.HasTerminal t)
    (hend : p.unitOf t ≠ p.stream.endUnit) :
    (∀ i, p.select a (p.unitOf t) = some i →
      ∃ body, (p.grammar.rulesOf a)[i]? = some body ∧ p.table.cell a t = [body]) ∧
    (p.grammar.StartsFirmly a →
      (p.select a (p.unitOf t) = none ↔ p.table.cell a t = [])) := by
  have hmade := made_of_make hp
  have d : p.Unequivocal :=
    ⟨(hg.reduce hmade.reduced).1, hmade.table_eq, hll,
      fun t u hterm huterm ht hu => hinjective t u ⟨hterm, .inr ht⟩ ⟨huterm, .inr hu⟩⟩
  have hsame : ∀ u, p.grammar.HasTerminal u → p.unitOf u = p.unitOf t → u = t :=
    fun u hu => hinjective u t hu ht
  have selected : ∀ i, p.select a (p.unitOf t) = some i →
      ∃ body, (p.grammar.rulesOf a)[i]? = some body ∧ body ∈ p.table.cell a t := by
    intro i hi
    obtain ⟨body, hget⟩ := exists_body_of_select hi
    exact ⟨body, hget, d.mem_cell_of_select hsame hend hi hget⟩
  refine ⟨fun i hi => ?_, fun hfirm => ⟨fun hnone => ?_, fun hempty => ?_⟩⟩
  · obtain ⟨body, hget, hmem⟩ := selected i hi
    rw [d.table_eq] at hmem ⊢
    rw [Parser.isLL, d.table_eq] at hll
    exact ⟨body, hget, ActionTable.cell_eq_singleton hll hmem⟩
  · refine List.eq_nil_iff_forall_not_mem.mpr fun body hmem => ?_
    obtain ⟨i, hi, -⟩ := d.exists_select_of_mem_cell hfirm hmem
    rw [hnone] at hi
    cases hi
  · cases hi : p.select a (p.unitOf t) with
    | none => rfl
    | some i =>
      obtain ⟨body, -, hmem⟩ := selected i hi
      rw [hempty] at hmem
      exact absurd hmem List.not_mem_nil

/-- For the sign the parser of sums selects the alternative of the new variable
that its cell holds. -/
theorem make_select_agrees_sums :
    Grammar.sums.Closed ∧
    ∃ p i, make {} Grammar.sums none (Token.ofNames ["x", "end"]) = .ok p ∧ p.isLL 1 = true ∧
      p.grammar.StartsFirmly (.nonterminal "E''") ∧ p.grammar.HasTerminal (.terminal "+") ∧
      p.unitOf (.terminal "+") ≠ p.stream.endUnit ∧
      p.select (.nonterminal "E''") (p.unitOf (.terminal "+")) = some i ∧
      ∃ body, (p.grammar.rulesOf (.nonterminal "E''"))[i]? = some body ∧
        p.table.cell (.nonterminal "E''") (.terminal "+") = [body] := by
  have hrun : ((make {} Grammar.sums none (Token.ofNames ["x", "end"])).toOption.bind fun p =>
      some (p.isLL 1, decide (p.grammar.StartsFirmly (.nonterminal "E''")),
        decide (.terminal "+" ∈ p.grammar.terminals),
        decide (p.unitOf (.terminal "+") ≠ p.stream.endUnit),
        (p.table.cell (.nonterminal "E''") (.terminal "+")).isEmpty)) =
      some (true, true, true, true, false) := by
    decide +kernel
  obtain ⟨p, hmake, hp⟩ := exists_of_make_bind hrun
  obtain ⟨hll, hrest⟩ := Prod.mk.inj (Option.some.inj hp)
  obtain ⟨hfirm, hrest⟩ := Prod.mk.inj hrest
  obtain ⟨hdeclared, hrest⟩ := Prod.mk.inj hrest
  obtain ⟨hend, hcell⟩ := Prod.mk.inj hrest
  have hmade := made_of_make hmake
  have hterminal : p.grammar.HasTerminal (.terminal "+") :=
    ⟨rfl, .inl (of_decide_eq_true hdeclared)⟩
  obtain ⟨hsingle, hempty⟩ := make_select_agrees Grammar.sums_closed hmake hll
    (fun t u ht hu h => eq_of_unitOf_eq hmade.units_eq ht.1 hu.1 h) hterminal
    (of_decide_eq_true hend)
  cases hi : p.select (.nonterminal "E''") (p.unitOf (.terminal "+")) with
  | none =>
    rw [(hempty (of_decide_eq_true hfirm)).mp hi] at hcell
    cases hcell
  | some i =>
    exact ⟨Grammar.sums_closed, p, i, hmake, hll, of_decide_eq_true hfirm, hterminal,
      of_decide_eq_true hend, hi, hsingle i hi⟩

/-- The grammar of lists becomes one of `A' A''`, where `A'` is empty and `A''`
is a list with the first `x` to the left. The cell of `A` and `x` holds this
alternative, and no alternative is selected: the leading symbol `A'` cannot
start with `x`. -/
theorem select_overlooks_lists :
    Grammar.lists.Closed ∧
    ∃ p, make {} Grammar.lists none (Token.ofNames ["x", "end"]) = .ok p ∧ p.isLL 1 = true ∧
      (∀ t u, p.grammar.HasTerminal t → p.grammar.HasTerminal u →
        p.unitOf t = p.unitOf u → t = u) ∧
      p.grammar.HasTerminal (.terminal "x") ∧
      p.unitOf (.terminal "x") ≠ p.stream.endUnit ∧
      p.table.cell (.nonterminal "A") (.terminal "x") =
        [[.nonterminal "A'", .nonterminal "A''"]] ∧
      p.select (.nonterminal "A") (p.unitOf (.terminal "x")) = none := by
  have hrun : ((make {} Grammar.lists none (Token.ofNames ["x", "end"])).toOption.bind fun p =>
      some (p.isLL 1, decide (.terminal "x" ∈ p.grammar.terminals),
        decide (p.unitOf (.terminal "x") ≠ p.stream.endUnit),
        decide (p.table.cell (.nonterminal "A") (.terminal "x") =
          [[.nonterminal "A'", .nonterminal "A''"]]),
        p.select (.nonterminal "A") (p.unitOf (.terminal "x")))) =
      some (true, true, true, true, none) := by
    decide +kernel
  obtain ⟨p, hmake, hp⟩ := exists_of_make_bind hrun
  obtain ⟨hll, hrest⟩ := Prod.mk.inj (Option.some.inj hp)
  obtain ⟨hdeclared, hrest⟩ := Prod.mk.inj hrest
  obtain ⟨hend, hrest⟩ := Prod.mk.inj hrest
  obtain ⟨hcell, hselect⟩ := Prod.mk.inj hrest
  have hmade := made_of_make hmake
  exact ⟨Grammar.lists_closed, p, hmake, hll,
    fun t u ht hu h => eq_of_unitOf_eq hmade.units_eq ht.1 hu.1 h,
    ⟨rfl, .inl (of_decide_eq_true hdeclared)⟩, of_decide_eq_true hend,
    of_decide_eq_true hcell, hselect⟩

end Parser

end PredictiveParsing
