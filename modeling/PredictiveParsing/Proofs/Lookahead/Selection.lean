import PredictiveParsing.Proofs.ActionTable
import PredictiveParsing.Proofs.Lookahead.Exact
import PredictiveParsing.Proofs.Parser

/-!
# Selection

A parser selects by its FIRST and FOLLOW sets and never reads the table, which
is made from the same sets. So what it selects for a unit is in the cell of a
terminal with that unit, unless it is the empty string at the end of the stream.
Where the table has no conflicts, the sets are exact and the units tell
terminals apart, the selected alternative is the only one that a derivation
can have used: the one that leads to the next terminal, or the empty string
if the next terminal comes after the variable or there is none.
-/

namespace PredictiveParsing

/-- What follows a variable predicts the empty string, and nothing else
does. -/
theorem Grammar.Closed.mem_predictors_epsilonBody {g : Grammar} (hg : g.Closed)
    {follow : SymbolSet} {t : Symbol} :
    t ∈ predictors (Lookahead.ofGrammar g) follow epsilonBody ↔ t ∈ follow := by
  have hself : (Lookahead.ofGrammar g).firstOf .epsilon = .singleton .epsilon :=
    hg.lookup_eq_singleton rfl
  have hvanish : .epsilon ∈ (Lookahead.ofGrammar g).firstOf .epsilon := by
    rw [hself]
    exact SymbolSet.mem_singleton.mpr rfl
  rw [epsilonBody, predictors]
  rw [if_pos hvanish, predictors, List.append_nil, List.mem_append]
  refine or_iff_right fun ht => ?_
  obtain ⟨hlookup, hne⟩ := SymbolSet.mem_erase.mp ht
  rw [hself] at hlookup
  exact hne (SymbolSet.mem_singleton.mp hlookup)

/-- Members of the FIRST set of a leading symbol other than the empty string are
terminals of bodies. -/
theorem Grammar.Closed.terminal_of_lookup {g : Grammar} (hg : g.Closed) {a t x : Symbol}
    {body : Body} (hb : body ∈ g.rulesOf a) (hx : body.head? = some x)
    (ht : t ∈ g.firstTable.lookup x) (hne : t ≠ .epsilon) :
    t.isTerminal = true ∧ g.Occurs t := by
  obtain ⟨n, hn⟩ := hg.firstSets.leads hg ht
  have hoccurs : g.Occurs t := by
    rcases hn.eq_or_occurs with e | ho
    · rw [e]
      exact ⟨a, body, hb, List.mem_of_head? hx⟩
    · exact ho
  exact ⟨hg.isTerminal_of_occurs hoccurs hn.notMem hne, hoccurs⟩

namespace Parser

/-- The conditions under which the next unit determines the alternative. -/
structure Deterministic (p : Parser) : Prop where
  /-- Symbols are declared by their kind. -/
  closed : p.grammar.Closed
  /-- The lookahead sets lose nothing. -/
  exact : p.grammar.ExactLookahead
  /-- The table is that of the grammar. -/
  table_eq : p.table = ActionTable.ofGrammar p.grammar
  /-- The table has no conflicts. -/
  isLL : p.isLL 1 = true
  /-- Terminals of bodies differ in their units. -/
  unit_injective : ∀ t u, t.isTerminal = true → u.isTerminal = true → p.grammar.Occurs t →
    p.grammar.Occurs u → p.unitOf t = p.unitOf u → t = u
  /-- No terminal of a body has the unit of the end marker. -/
  unit_ne_end : ∀ t, t.isTerminal = true → p.grammar.Occurs t → p.unitOf t ≠ p.stream.endUnit

/-- The conditions under which the table has one alternative at most for each
variable and terminal, and the units tell the terminals apart. -/
structure Unequivocal (p : Parser) : Prop where
  /-- Symbols are declared by their kind. -/
  closed : p.grammar.Closed
  /-- The table is that of the grammar. -/
  table_eq : p.table = ActionTable.ofGrammar p.grammar
  /-- The table has no conflicts. -/
  isLL : p.isLL 1 = true
  /-- Terminals of bodies differ in their units. -/
  unit_injective : ∀ t u, t.isTerminal = true → u.isTerminal = true → p.grammar.Occurs t →
    p.grammar.Occurs u → p.unitOf t = p.unitOf u → t = u

/-- The unit that comes next where a string of terminals is followed by the
end marker. -/
def unitAhead (p : Parser) : List Symbol → LexicalUnit
  | [] => p.stream.endUnit
  | t :: _ => p.unitOf t

variable {p : Parser} {a t x : Symbol} {unit : LexicalUnit} {body : Body}

/-- Where the units are the names, a name that stands in no body is no unit of
a terminal of the grammar. -/
theorem unitOf_ne_named (h : p.units = none) {name : String}
    (hnone : (p.grammar.rules.entries.all fun entry =>
      entry.2.all fun body => decide (Symbol.terminal name ∉ body)) = true) :
    ∀ t, t.isTerminal = true → p.grammar.Occurs t → p.unitOf t ≠ .named name := by
  intro t ht ⟨a, body, hbody, hx⟩ hu
  rw [eq_of_unitOf_eq h ht rfl (hu.trans (unitOf_terminal h name).symm)] at hx
  exact of_decide_eq_true (Components.forall_mem_rulesOf_of_all hnone a body hbody) hx

/-- A set meets a unit if a member other than the empty string has it. -/
theorem meets_iff {s : SymbolSet} :
    p.meets s unit = true ↔ ∃ b ∈ s, b ≠ .epsilon ∧ p.unitOf b = unit := by
  rw [meets, List.any_eq_true]
  constructor
  · intro ⟨b, hb, h⟩
    rw [Bool.and_eq_true, Bool.not_eq_true', beq_iff_eq] at h
    refine ⟨b, hb, fun e => ?_, h.2⟩
    rw [Symbol.isEpsilon_iff.mpr e] at h
    cases h.1
  · intro ⟨b, hb, hne, hu⟩
    refine ⟨b, hb, ?_⟩
    rw [Bool.and_eq_true, Bool.not_eq_true', beq_iff_eq]
    refine ⟨?_, hu⟩
    rw [← Bool.not_eq_true, Symbol.isEpsilon_iff]
    exact hne

/-- Where the unit can follow the variable the empty string is selected. -/
theorem select_of_follow (hv : epsilonBody ∈ p.grammar.rulesOf a)
    (hm : p.meets (p.follow.members a) unit = true) :
    ∃ i, p.select a unit = some i ∧ (p.grammar.rulesOf a)[i]? = some epsilonBody := by
  refine ⟨(p.grammar.rulesOf a).idxOf epsilonBody, ?_, ?_⟩
  · rw [select, Grammar.hasEpsilonRule_iff.mpr hv, hm]
    rfl
  · exact List.getElem?_idxOf hv

/-- Otherwise an alternative is selected whose leading symbol can start with
the unit, if there is one. -/
theorem select_of_leading
    (hf : ¬(epsilonBody ∈ p.grammar.rulesOf a ∧ p.meets (p.follow.members a) unit = true))
    (hb : body ∈ p.grammar.rulesOf a) (hm : p.meets (p.leadingSet body) unit = true) :
    ∃ i chosen, p.select a unit = some i ∧ (p.grammar.rulesOf a)[i]? = some chosen ∧
      p.meets (p.leadingSet chosen) unit = true := by
  have hfollow : (p.grammar.hasEpsilonRule a && p.meets (p.follow.members a) unit) = false := by
    rw [← Bool.not_eq_true, Bool.and_eq_true, Grammar.hasEpsilonRule_iff]
    exact hf
  cases hi : (p.grammar.rulesOf a).findIdx? fun body => p.meets (p.leadingSet body) unit with
  | none =>
    have hnone := List.findIdx?_eq_none_iff.mp hi body hb
    rw [hm] at hnone
    cases hnone
  | some i =>
    have hsome := List.of_findIdx?_eq_some hi
    cases hget : (p.grammar.rulesOf a)[i]? with
    | none =>
      rw [hget] at hsome
      cases hsome
    | some chosen =>
      rw [hget] at hsome
      refine ⟨i, chosen, ?_, hget, hsome⟩
      rw [select, hfollow, hi]
      rfl

/-- At the end of the stream the empty string is selected, if nothing else
can be. -/
theorem select_of_end
    (hf : p.meets (p.follow.members a) p.stream.endUnit = false)
    (hl : ∀ body ∈ p.grammar.rulesOf a, p.meets (p.leadingSet body) p.stream.endUnit = false)
    (hv : epsilonBody ∈ p.grammar.rulesOf a) :
    ∃ i, p.select a p.stream.endUnit = some i ∧
      (p.grammar.rulesOf a)[i]? = some epsilonBody := by
  have hnone : (p.grammar.rulesOf a).findIdx?
      (fun body => p.meets (p.leadingSet body) p.stream.endUnit) = none :=
    List.findIdx?_eq_none_iff.mpr hl
  refine ⟨(p.grammar.rulesOf a).idxOf epsilonBody, ?_, ?_⟩
  · rw [select, hf, hnone, Grammar.hasEpsilonRule_iff.mpr hv, beq_self_eq_true]
    rfl
  · exact List.getElem?_idxOf hv

/-- Why an alternative is selected: it is the empty string and the unit can
follow the variable, its leading symbol can start with the unit, or it is the
empty string at the end of the stream. -/
theorem cases_of_select {i : Nat} (h : p.select a unit = some i)
    (hb : (p.grammar.rulesOf a)[i]? = some body) :
    body = epsilonBody ∧ p.meets (p.follow.members a) unit = true ∨
      p.meets (p.leadingSet body) unit = true ∨
      body = epsilonBody ∧ unit = p.stream.endUnit := by
  have vanishing : p.grammar.hasEpsilonRule a = true →
      (p.grammar.rulesOf a).idxOf epsilonBody = i → body = epsilonBody := by
    intro hv hi
    rw [← hi, List.getElem?_idxOf (Grammar.hasEpsilonRule_iff.mp hv)] at hb
    exact (Option.some.inj hb).symm
  rw [select] at h
  split at h
  · next hv =>
    rw [Bool.and_eq_true] at hv
    exact .inl ⟨vanishing hv.1 (Option.some.inj h), hv.2⟩
  · split at h
    · next j hj =>
      have hsome := List.of_findIdx?_eq_some hj
      rw [Option.some.inj h, hb] at hsome
      exact .inr (.inl hsome)
    · split at h
      · next hv =>
        rw [Bool.and_eq_true, beq_iff_eq] at hv
        exact .inr (.inr ⟨vanishing hv.1 (Option.some.inj h), hv.2⟩)
      · cases h

/-- A selected alternative is the empty string, or its leading symbol can
start with the unit. -/
theorem eq_epsilonBody_or_meets {i : Nat} (h : p.select a unit = some i)
    (hb : (p.grammar.rulesOf a)[i]? = some body) :
    body = epsilonBody ∨ p.meets (p.leadingSet body) unit = true := by
  rcases cases_of_select h hb with ⟨e, -⟩ | hm | ⟨e, -⟩
  · exact .inl e
  · exact .inr hm
  · exact .inl e

/-- The leading set of an alternative is what is looked up for its leading
symbol. -/
theorem leadingSet_eq_lookup (hg : p.grammar.Closed)
    (ht : p.table = ActionTable.ofGrammar p.grammar) (hb : body ∈ p.grammar.rulesOf a)
    (hx : body.head? = some x) : p.leadingSet body = p.grammar.firstTable.lookup x := by
  have hfirst : p.first = p.grammar.firstTable := by
    rw [first, ht]
    rfl
  rw [leadingSet, hx, hfirst, FirstTable.lookup]
  dsimp only
  cases hget : p.grammar.firstTable.get? x with
  | some s => rfl
  | none =>
    have hkind : x.isNonterminal ≠ true := by
      intro hk
      have hv := hg.body_declared a body hb x (List.mem_of_head? hx) hk
      obtain ⟨s, hs⟩ := hg.firstSets.exists_get? (Grammar.mem_analysedSymbols_of_mem_vars hv)
      rw [hs] at hget
      cases hget
    rw [Option.getD_none, if_neg hkind]

/-- The FOLLOW sets of a parser are those of its grammar. -/
theorem follow_eq_followTable (ht : p.table = ActionTable.ofGrammar p.grammar) :
    p.follow = p.grammar.followTable := by
  rw [follow, ht]
  rfl

/-- A leading set that meets a unit does so with a member of the FIRST set of the
leading symbol. -/
theorem exists_lookup_of_meets (hg : p.grammar.Closed)
    (ht : p.table = ActionTable.ofGrammar p.grammar) (hb : body ∈ p.grammar.rulesOf a)
    (h : p.meets (p.leadingSet body) unit = true) :
    ∃ x t, body.head? = some x ∧ t ∈ p.grammar.firstTable.lookup x ∧ t ≠ .epsilon ∧
      p.unitOf t = unit := by
  obtain ⟨t, hmem, hne, hu⟩ := meets_iff.mp h
  cases hx : body.head? with
  | none =>
    rw [leadingSet, hx] at hmem
    exact absurd hmem (SymbolSet.not_mem_empty t)
  | some x =>
    rw [leadingSet_eq_lookup hg ht hb hx] at hmem
    exact ⟨x, t, rfl, hmem, hne, hu⟩

/-- What is selected for a unit is in the cell of a terminal with that unit,
unless it is the empty string at the end of the stream. -/
theorem mem_cell_or_end_of_select (hg : p.grammar.Closed)
    (ht : p.table = ActionTable.ofGrammar p.grammar) {i : Nat} (hi : p.select a unit = some i)
    (hget : (p.grammar.rulesOf a)[i]? = some body) :
    (∃ t, t.isTerminal = true ∧ p.grammar.Occurs t ∧ p.unitOf t = unit ∧
      body ∈ p.table.cell a t) ∨ body = epsilonBody ∧ unit = p.stream.endUnit := by
  have hb := List.mem_of_getElem? hget
  rcases cases_of_select hi hget with ⟨rfl, hm⟩ | hm | hend
  · obtain ⟨t, hmem, -, hunit⟩ := meets_iff.mp hm
    rw [follow_eq_followTable ht] at hmem
    obtain ⟨hvar, hempty, hoccurs⟩ := hg.followSets.mem_members hmem
    refine .inl ⟨t, hg.isTerminal_of_occurs hoccurs hvar hempty, hoccurs, hunit, ?_⟩
    rw [ht]
    exact ActionTable.mem_cell_iff.mpr ⟨hb, hg.mem_predictors_epsilonBody.mpr hmem⟩
  · obtain ⟨x, t, hx, hmem, hne, hunit⟩ := exists_lookup_of_meets hg ht hb hm
    obtain ⟨hterminal, hoccurs⟩ := hg.terminal_of_lookup hb hx hmem hne
    refine .inl ⟨t, hterminal, hoccurs, hunit, ?_⟩
    rw [ht]
    exact ActionTable.mem_cell_iff.mpr ⟨hb, mem_predictors_of_first hx hmem hne⟩
  · exact .inr hend

namespace Unequivocal

/-- The FOLLOW sets of the parser are those of its grammar. -/
theorem follow_eq (d : p.Unequivocal) : p.follow = p.grammar.followTable :=
  follow_eq_followTable d.table_eq

/-- An alternative is determined by the terminal that predicts it. -/
theorem eq_of_predictors (d : p.Unequivocal) {other : Body} (hb : body ∈ p.grammar.rulesOf a)
    (ho : other ∈ p.grammar.rulesOf a)
    (hbody : t ∈ predictors (Lookahead.ofGrammar p.grammar) (p.grammar.followTable.members a) body)
    (hother : t ∈ predictors (Lookahead.ofGrammar p.grammar)
      (p.grammar.followTable.members a) other) :
    body = other := by
  have hll := d.isLL
  rw [Parser.isLL, d.table_eq] at hll
  exact ActionTable.eq_of_isLL hll (ActionTable.mem_cell_iff.mpr ⟨hb, hbody⟩)
    (ActionTable.mem_cell_iff.mpr ⟨ho, hother⟩)

/-- The leading set of an alternative is the FIRST set of its first
symbol. -/
theorem leadingSet_eq (d : p.Unequivocal) (hb : body ∈ p.grammar.rulesOf a)
    (hx : body.head? = some x) : p.leadingSet body = p.grammar.firstTable.lookup x :=
  leadingSet_eq_lookup d.closed d.table_eq hb hx

/-- The FOLLOW set meets the unit of a terminal only if it has the
terminal. -/
theorem mem_follow_of_meets (d : p.Unequivocal) (ht : t.isTerminal = true)
    (ho : p.grammar.Occurs t) (h : p.meets (p.follow.members a) (p.unitOf t) = true) :
    t ∈ p.grammar.followTable.members a := by
  obtain ⟨b, hb, -, hu⟩ := meets_iff.mp h
  rw [d.follow_eq] at hb
  obtain ⟨hvar, hempty, hoccurs⟩ := d.closed.followSets.mem_members hb
  have hterminal := d.closed.isTerminal_of_occurs hoccurs hvar hempty
  rw [d.unit_injective t b ht hterminal ho hoccurs hu.symm]
  exact hb

/-- An alternative that leads to a terminal is selected by its unit. -/
theorem select_leading (d : p.Unequivocal) (hb : body ∈ p.grammar.rulesOf a)
    (hx : body.head? = some x) (ht : t ∈ p.grammar.firstTable.lookup x) (hne : t ≠ .epsilon) :
    ∃ i, p.select a (p.unitOf t) = some i ∧ (p.grammar.rulesOf a)[i]? = some body := by
  obtain ⟨hterminal, hoccurs⟩ := d.closed.terminal_of_lookup hb hx ht hne
  have hfollow : ¬(epsilonBody ∈ p.grammar.rulesOf a ∧
      p.meets (p.follow.members a) (p.unitOf t) = true) := by
    intro ⟨hv, hm⟩
    have hmem := d.mem_follow_of_meets hterminal hoccurs hm
    have heq : body = epsilonBody := d.eq_of_predictors hb hv
      (mem_predictors_of_first hx ht hne) (d.closed.mem_predictors_epsilonBody.mpr hmem)
    rw [heq] at hx
    rw [← Option.some.inj hx, d.closed.lookup_eq_singleton rfl] at ht
    exact hne (SymbolSet.mem_singleton.mp ht)
  have hmeets : p.meets (p.leadingSet body) (p.unitOf t) = true := by
    rw [d.leadingSet_eq hb hx]
    exact meets_iff.mpr ⟨t, ht, hne, rfl⟩
  obtain ⟨i, chosen, hi, hget, hm⟩ := select_of_leading hfollow hb hmeets
  have hchosen := List.mem_of_getElem? hget
  obtain ⟨y, u, hy, hu, hune, hunit⟩ := exists_lookup_of_meets d.closed d.table_eq hchosen hm
  obtain ⟨huterminal, huoccurs⟩ := d.closed.terminal_of_lookup hchosen hy hu hune
  rw [d.unit_injective u t huterminal hterminal huoccurs hoccurs hunit] at hu
  have heq : chosen = body := d.eq_of_predictors hchosen hb
    (mem_predictors_of_first hy hu hne) (mem_predictors_of_first hx ht hne)
  rw [heq] at hget
  exact ⟨i, hi, hget⟩

end Unequivocal

end Parser

end PredictiveParsing
