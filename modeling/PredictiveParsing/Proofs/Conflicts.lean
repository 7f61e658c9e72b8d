import PredictiveParsing.Grammar.Names
import PredictiveParsing.Proofs.ActionTable
import PredictiveParsing.Proofs.Grammar.Numbering

/-!
# Cells, their rule numbers and the conflicts

What is predicted is found by a scan over an alternative that stops behind the
first symbol that cannot vanish, and it is stored in the order of the scans. A
table is read in three ways: a cell lists its alternatives by the rules, the
conflicts go through all variables and all terminals, and the test for LL(k)
goes through the stored cells. All three say the same: the alternatives of a
cell come in the order of the rules with increasing rule numbers, a cell with
several alternatives is one conflict, and the test counts the alternatives of
the cells.
-/

namespace PredictiveParsing

/-- A terminal predicts an alternative of a variable: behind symbols that can
vanish there is a symbol that can start with the terminal, or one that can
vanish too, and the terminal can follow the variable. -/
def Lookahead.Predicts (l : Lookahead) (a t : Symbol) (body : Body) : Prop :=
  ∃ before x after, body = before ++ x :: after ∧ (∀ y ∈ before, .epsilon ∈ l.firstOf y) ∧
    (t ∈ l.firstOf x ∨ .epsilon ∈ l.firstOf x ∧ t ∈ l.follow.members a)

/-- A terminal predicts an alternative by the leading symbol, or the leading
symbol can vanish and the terminal can follow the variable or predicts by the
symbols behind. -/
theorem Lookahead.predicts_cons {l : Lookahead} {a t x : Symbol} {rest : Body} :
    l.Predicts a t (x :: rest) ↔
      t ∈ l.firstOf x ∨ .epsilon ∈ l.firstOf x ∧
        (t ∈ l.follow.members a ∨ l.Predicts a t rest) := by
  have nothing : ∀ y ∈ ([] : Body), .epsilon ∈ l.firstOf y := fun y hy => absurd hy List.not_mem_nil
  constructor
  · rintro ⟨before, y, after, he, hbefore, hy⟩
    cases before with
    | nil =>
      obtain ⟨rfl, -⟩ := List.cons.inj he
      exact hy.imp_right fun ⟨hvanish, hfollow⟩ => ⟨hvanish, .inl hfollow⟩
    | cons z before =>
      obtain ⟨rfl, rfl⟩ := List.cons.inj he
      have hrest : l.Predicts a t (before ++ y :: after) :=
        ⟨before, y, after, rfl, fun w hw => hbefore w (List.mem_cons_of_mem _ hw), hy⟩
      exact .inr ⟨hbefore x List.mem_cons_self, .inr hrest⟩
  · rintro (hx | ⟨hvanish, hfollow | ⟨before, y, after, rfl, hbefore, hy⟩⟩)
    · exact ⟨[], x, rest, rfl, nothing, .inl hx⟩
    · exact ⟨[], x, rest, rfl, nothing, .inr ⟨hvanish, hfollow⟩⟩
    · refine ⟨x :: before, y, after, rfl, fun z hz => ?_, hy⟩
      rcases List.mem_cons.mp hz with rfl | hz
      · exact hvanish
      · exact hbefore z hz

/-- The scan over an alternative finds the terminals that predict it. -/
theorem mem_predictors_iff {l : Lookahead} {a t : Symbol} {body : Body} (ht : t ≠ .epsilon) :
    t ∈ predictors l (l.follow.members a) body ↔ l.Predicts a t body := by
  induction body with
  | nil =>
    refine iff_of_false List.not_mem_nil fun ⟨before, x, after, he, _⟩ => ?_
    cases (List.append_eq_nil_iff.mp he.symm).2
  | cons x rest ih =>
    have hfirst : t ∈ ((l.firstOf x).erase .epsilon).members ↔ t ∈ l.firstOf x :=
      SymbolSet.mem_erase.trans (and_iff_left ht)
    rw [predictors]
    rw [List.mem_append, hfirst, Lookahead.predicts_cons]
    refine or_congr_right ?_
    by_cases hvanish : .epsilon ∈ l.firstOf x
    · rw [if_pos hvanish, and_iff_right hvanish, List.mem_append, ih, SymbolSet.mem_members]
    · rw [if_neg hvanish]
      exact iff_of_false List.not_mem_nil fun h => hvanish h.1

namespace ActionTable

variable {g : Grammar} {l : Lookahead} {a t : Symbol}

/-- A cell lists its alternatives in the order of the rules. -/
theorem pairwise_idxOf_cell (table : ActionTable) (a t : Symbol) :
    (table.cell a t).Pairwise fun body other =>
      (table.grammar.rulesOf a).idxOf body < (table.grammar.rulesOf a).idxOf other :=
  (pairwise_idxOf_eraseDups _).filter _

/-- The alternatives in a cell are alternatives of its variable. -/
theorem mem_rulesOf_of_mem_cell {table : ActionTable} {body : Body}
    (h : body ∈ table.cell a t) : body ∈ table.grammar.rulesOf a :=
  List.mem_eraseDups.mp (List.mem_filter.mp h).1

/-- The rule numbers in a cell count from the first number of its variable. -/
theorem cellNumbers_eq_map (table : ActionTable) (a t : Symbol) :
    table.cellNumbers a t = (table.cell a t).map fun body =>
      (table.grammar.firstNumber? a).getD 0 + (table.grammar.rulesOf a).idxOf body := by
  rw [cellNumbers, ← List.filterMap_eq_map]
  refine List.filterMap_congr fun body hbody => ?_
  have hvar := Grammar.mem_vars_of_mem_rulesOf (mem_rulesOf_of_mem_cell hbody)
  obtain ⟨n, hn⟩ := Option.isSome_iff_exists.mp (Grammar.isSome_firstNumber? hvar)
  rw [hn]
  rfl

/-- The rule numbers in a cell increase. -/
theorem pairwise_cellNumbers (table : ActionTable) (a t : Symbol) :
    (table.cellNumbers a t).Pairwise (· < ·) := by
  rw [cellNumbers_eq_map, List.pairwise_map]
  exact (table.pairwise_idxOf_cell a t).imp fun h => Nat.add_lt_add_left h _

/-- The rule numbers in a cell are the numbers of its alternatives. -/
theorem map_ruleNumbered?_cellNumbers (table : ActionTable) (a t : Symbol) :
    (table.cellNumbers a t).map table.grammar.ruleNumbered? =
      (table.cell a t).map fun body => some (a, body) := by
  rw [cellNumbers_eq_map, List.map_map]
  refine List.map_congr_left fun body hbody => ?_
  exact Grammar.ruleNumbered?_firstNumber (List.getElem?_idxOf (mem_rulesOf_of_mem_cell hbody))

/-- No terminal is listed twice. -/
theorem nodup_terminals (table : ActionTable) : table.terminals.Nodup :=
  (Text.sortBy_perm _ _).nodup_iff.mpr (SymbolSet.nodup_members _)

/-- The terminal of a filled cell is listed, declared or not. -/
theorem mem_terminals_of_mem_filledCells {table : ActionTable} (h : (a, t) ∈ table.filledCells) :
    t ∈ table.terminals := by
  refine Text.mem_sortBy.mpr (SymbolSet.mem_union.mpr (.inr ?_))
  exact SymbolSet.mem_ofList.mpr (List.mem_map.mpr ⟨(a, t), h, rfl⟩)

/-- There is a conflict in a cell if it lists several alternatives. -/
theorem conflict?_eq_some_iff {table : ActionTable} {c : Conflict} :
    table.conflict? a t = some c ↔
      1 < (table.cell a t).length ∧ c = ⟨a, t, table.cell a t, table.cellNumbers a t⟩ := by
  rw [conflict?]
  split
  · next h => rw [Option.some.injEq, and_iff_right h, eq_comm]
  · next h => exact iff_of_false nofun fun hc => h hc.1

/-- The conflicts are the cells that list several alternatives, with what they
list. -/
theorem mem_conflicts_iff {c : Conflict} :
    c ∈ (build g l).conflicts ↔ 1 < ((build g l).cell c.head c.lookahead).length ∧
      c.bodies = (build g l).cell c.head c.lookahead ∧
      c.numbers = (build g l).cellNumbers c.head c.lookahead := by
  rw [conflicts, List.mem_flatMap]
  constructor
  · intro ⟨a, _, hc⟩
    obtain ⟨t, _, hc⟩ := List.mem_filterMap.mp hc
    obtain ⟨hlength, rfl⟩ := conflict?_eq_some_iff.mp hc
    exact ⟨hlength, rfl, rfl⟩
  · intro ⟨hlength, hbodies, hnumbers⟩
    have hc : (build g l).conflict? c.head c.lookahead = some c :=
      conflict?_eq_some_iff.mpr ⟨hlength, by rw [← hbodies, ← hnumbers]⟩
    obtain ⟨body, hbody⟩ := List.exists_mem_of_length_pos (Nat.zero_lt_of_lt hlength)
    have hvar : c.head ∈ g.vars := Grammar.mem_vars_of_mem_rulesOf (mem_rulesOf_of_mem_cell hbody)
    have hfilled := mem_filledCells (cell_perm_stored.mem_iff.mp hbody)
    exact ⟨c.head, Grammar.mem_displayOrder.mpr hvar,
      List.mem_filterMap.mpr ⟨c.lookahead, mem_terminals_of_mem_filledCells hfilled, hc⟩⟩

/-- No two conflicts are in the same cell. -/
theorem nodup_conflicts (table : ActionTable) :
    (table.conflicts.map fun c => (c.head, c.lookahead)).Nodup := by
  have place : ∀ {a t c}, table.conflict? a t = some c → (c.head, c.lookahead) = (a, t) := by
    intro a t c hc
    rw [(conflict?_eq_some_iff.mp hc).2]
  rw [List.Nodup, List.pairwise_map, conflicts, List.pairwise_flatMap]
  constructor
  · intro a _
    rw [List.pairwise_filterMap]
    refine table.nodup_terminals.imp fun {t u} hne c hc d hd e => ?_
    rw [place hc, place hd] at e
    exact hne (Prod.mk.inj e).2
  · refine (Grammar.nodup_displayOrder table.grammar).imp fun {a b} hne c hc d hd e => ?_
    obtain ⟨t, _, hc⟩ := List.mem_filterMap.mp hc
    obtain ⟨u, _, hd⟩ := List.mem_filterMap.mp hd
    rw [place hc, place hd] at e
    exact hne (Prod.mk.inj e).1

/-- For a number that is not negative the cells that list nothing count too. -/
theorem isLL_natCast_iff {n : Nat} :
    (build g l).isLL n = true ↔ ∀ a t, ((build g l).cell a t).length ≤ n := by
  rw [isLL_iff]
  refine forall_congr' fun a => forall_congr' fun t => ?_
  rw [Int.ofNat_le]
  refine ⟨fun h => ?_, fun h _ => h⟩
  by_cases hempty : (build g l).cell a t = []
  · rw [hempty]
    exact Nat.zero_le n
  · exact h hempty

/-- A table is LL(1) if it has no conflicts. -/
theorem isLL_one_iff : (build g l).isLL 1 = true ↔ (build g l).conflicts = [] := by
  rw [isLL_iff, List.eq_nil_iff_forall_not_mem]
  constructor
  · intro h c hc
    have hlength := (mem_conflicts_iff.mp hc).1
    have hle := h _ _ (List.ne_nil_of_length_pos (Nat.zero_lt_of_lt hlength))
    omega
  · intro h a t _
    by_contra hlarge
    have hlength : 1 < ((build g l).cell a t).length := by omega
    exact h ⟨a, t, (build g l).cell a t, (build g l).cellNumbers a t⟩
      (mem_conflicts_iff.mpr ⟨hlength, rfl, rfl⟩)

/-- The readings of the action table of a grammar agree. A cell lists, each
once and in the order of the rules, the alternatives that its terminal predicts;
its rule numbers increase and are those of its alternatives; the conflicts are
the cells with several alternatives, each of them once; the table is LL of a
number if no cell has more alternatives than that; and it is LL(1) exactly if it
has no conflicts. Terminals that are not declared are no exception. -/
theorem ofGrammar_readings (g : Grammar) :
    (∀ a name, ((ofGrammar g).cell a (.terminal name)).Nodup ∧
      ((ofGrammar g).cell a (.terminal name)).Pairwise (fun body other =>
        (g.rulesOf a).idxOf body < (g.rulesOf a).idxOf other) ∧
      ∀ body, body ∈ (ofGrammar g).cell a (.terminal name) ↔
        body ∈ g.rulesOf a ∧ (Lookahead.ofGrammar g).Predicts a (.terminal name) body) ∧
    (∀ a t, ((ofGrammar g).cellNumbers a t).Pairwise (· < ·) ∧
      ((ofGrammar g).cellNumbers a t).map g.ruleNumbered? =
        ((ofGrammar g).cell a t).map fun body => some (a, body)) ∧
    ((ofGrammar g).conflicts.map fun c => (c.head, c.lookahead)).Nodup ∧
    (∀ c, c ∈ (ofGrammar g).conflicts ↔
      1 < ((ofGrammar g).cell c.head c.lookahead).length ∧
        c.bodies = (ofGrammar g).cell c.head c.lookahead ∧
        c.numbers = (ofGrammar g).cellNumbers c.head c.lookahead) ∧
    (∀ n : Int, (ofGrammar g).isLL n = true ↔
      ∀ a t, (ofGrammar g).cell a t ≠ [] → (((ofGrammar g).cell a t).length : Int) ≤ n) ∧
    (∀ n : Nat, (ofGrammar g).isLL n = true ↔
      ∀ a t, ((ofGrammar g).cell a t).length ≤ n) ∧
    ((ofGrammar g).isLL 1 = true ↔ (ofGrammar g).conflicts = []) := by
  refine ⟨fun a name => ⟨nodup_cell _ a _, (ofGrammar g).pairwise_idxOf_cell a _, fun body => ?_⟩,
    fun a t => ⟨pairwise_cellNumbers _ a t, (ofGrammar g).map_ruleNumbered?_cellNumbers a t⟩,
    nodup_conflicts _, fun c => mem_conflicts_iff, fun n => isLL_iff,
    fun n => isLL_natCast_iff, isLL_one_iff⟩
  rw [ofGrammar, mem_cell_iff, mem_predictors_iff Symbol.noConfusion]

-- the terminal is not declared, and its conflict is listed
example : (ofGrammar ⟨Grammar.componentsOfNames ["S"] [] [("S", [["x"], ["x", "y"]])] "S" none,
      by decide +kernel⟩).conflicts.map (fun c => (c.head, c.lookahead, c.numbers)) =
    [(.nonterminal "S", .terminal "x", [1, 2])] := by decide +kernel

end ActionTable

end PredictiveParsing
