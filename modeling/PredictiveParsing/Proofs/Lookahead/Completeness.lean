import PredictiveParsing.Proofs.Lookahead.Agreement
import PredictiveParsing.Proofs.Reduction.UsefulSymbols

/-!
# Complete action tables

A table is complete if it holds every alternative that a derivation from the
start symbol needs: where a variable stands in a derived form, and one of its
alternatives with what comes after it derives a string of terminals, the
alternative is in the cell of the first terminal. Exact lookahead sets make
complete tables. A complete table without conflicts determines the alternative
by the next terminal, and a selection follows it where no alternative begins
with a symbol that can vanish.
-/

namespace PredictiveParsing

namespace Grammar

/-- The cells of the table hold all alternatives that derivations from the
start symbol need. -/
def CompleteTable (g : Grammar) : Prop :=
  ∀ left a right body t rest, Derives g.rulesOf [g.start] (left ++ a :: right) →
    body ∈ g.rulesOf a → Generates g.rulesOf (Body.spelled body ++ right) (t :: rest) →
    body ∈ (ActionTable.ofGrammar g).cell a t

variable {g : Grammar} {x : Symbol} {levels : List Body}

/-- A body in which a variable stands is not the empty string. -/
theorem Closed.ne_epsilonBody (hg : g.Closed) {body : Body} (hx : x ∈ g.vars) (h : x ∈ body) :
    body ≠ epsilonBody := by
  rintro rfl
  exact hg.ne_epsilon_of_mem_vars hx (List.mem_singleton.mp h)

/-- A variable inside others stands in a derived form, with what is unread
behind it. -/
theorem Nested.exists_derives (hg : g.Closed) (h : g.Nested x levels) (hx : x ∈ g.vars) :
    ∃ left, Derives g.rulesOf [g.start] (left ++ x :: levels.flatten) := by
  induction h with
  | start => exact ⟨[], .refl⟩
  | @inside b x read unread levels mem outer ih =>
    have hb := mem_vars_of_mem_rulesOf mem
    obtain ⟨left, hleft⟩ := ih hb
    have hinside : x ∈ read ++ x :: unread := List.mem_append_right read List.mem_cons_self
    have hne := hg.ne_epsilonBody hx hinside
    obtain ⟨n, rfl⟩ := hg.exists_name hb
    have step := Rewrites.apply left levels.flatten mem
    rw [spelled_of_mem_rulesOf mem hne] at step
    have hall := hleft.tail step
    rw [List.append_assoc, List.cons_append] at hall
    refine ⟨left ++ read, ?_⟩
    rw [List.flatten_cons, List.append_assoc]
    exact hall

/-- A complete table holds the alternative from which, with what stands behind
the variable, a string with a first terminal is yielded. -/
theorem CompleteTable.mem_cell_of_yields (hc : g.CompleteTable) (hg : g.Closed)
    {left right rest : List Symbol} {a t : Symbol} {body : Body}
    (hform : Derives g.rulesOf [g.start] (left ++ a :: right)) (hbody : body ∈ g.rulesOf a)
    (hyields : Yields g.rulesOf (Body.spelled body ++ right) (t :: rest)) :
    body ∈ (ActionTable.ofGrammar g).cell a t := by
  have hright : .epsilon ∉ right := fun he =>
    hg.epsilon_notMem_of_start hform (List.mem_append_right _ (List.mem_cons_of_mem _ he))
  have hnone : .epsilon ∉ Body.spelled body ++ right := by
    rw [List.mem_append, not_or]
    exact ⟨body.epsilon_notMem_spelled, hright⟩
  exact hc left a right body t rest hform hbody ((generates_iff_yields hnone).mpr hyields)

/-- So it holds the alternative of a variable inside others that yields the
beginning of what comes. -/
theorem CompleteTable.mem_cell (hc : g.CompleteTable) (hg : g.Closed) (h : g.Nested x levels)
    {body : Body} (hbody : body ∈ g.rulesOf x) {own after : List Symbol}
    (hown : Yields g.rulesOf body own) (hafter : Yields g.rulesOf levels.flatten after)
    {t : Symbol} {rest : List Symbol} (hnext : own ++ after = t :: rest) :
    body ∈ (ActionTable.ofGrammar g).cell x t := by
  obtain ⟨left, hleft⟩ := h.exists_derives hg (mem_vars_of_mem_rulesOf hbody)
  have hyields := (yields_spelled.mpr hown).append hafter
  rw [hnext] at hyields
  exact hc.mem_cell_of_yields hg hleft hbody hyields

/-- An element of two parts stands in the first or in the second one. -/
theorem cases_of_append_eq_append_cons {u v left right : List Symbol} {a : Symbol}
    (h : u ++ v = left ++ a :: right) :
    (∃ k, u = left ++ a :: k ∧ right = k ++ v) ∨ ∃ k, left = u ++ k ∧ v = k ++ a :: right := by
  rcases List.append_eq_append_iff.mp h with ⟨k, hleft, hv⟩ | ⟨k, hu, hk⟩
  · exact .inr ⟨k, hleft, hv⟩
  · cases k with
    | nil => exact .inr ⟨[], by rw [hu, List.append_nil, List.append_nil], hk.symm⟩
    | cons b k =>
      obtain ⟨rfl, hright⟩ := List.cons.inj hk
      exact .inl ⟨k, hu, hright⟩

/-- What stands behind a symbol in a derived form is derived from what is unread
around the symbol. -/
theorem exists_nested {form : List Symbol} (h : Derives g.rulesOf [g.start] form) :
    ∀ left a right, form = left ++ a :: right →
      ∃ levels, g.Nested a levels ∧ Derives g.rulesOf levels.flatten right := by
  induction h with
  | refl =>
    intro left a right he
    obtain ⟨rfl, he⟩ | ⟨_, -, he⟩ := List.cons_eq_append_iff.mp he
    · obtain ⟨rfl, rfl⟩ := List.cons.inj he
      exact ⟨[], .start, .refl⟩
    · cases (List.append_eq_nil_iff.mp he.symm).2
  | tail _ step ih =>
    intro left a right he
    cases step with
    | @apply l r n body mem =>
      -- the symbol stands in front of the replaced variable, in its body, or behind it
      rcases cases_of_append_eq_append_cons he with ⟨m, hl, hright⟩ | ⟨m, -, hrest⟩
      · have hform : l ++ .nonterminal n :: r = left ++ a :: (m ++ .nonterminal n :: r) := by
          rw [hl, List.append_assoc, List.cons_append]
        obtain ⟨levels, hnested, hderives⟩ := ih left a _ hform
        rw [hright]
        exact ⟨levels, hnested, hderives.tail (.apply m r mem)⟩
      rcases cases_of_append_eq_append_cons hrest with ⟨unread, hbody, hright⟩ | ⟨k, -, hr⟩
      · obtain ⟨levels, hnested, hderives⟩ := ih l (.nonterminal n) r rfl
        have hne : body ≠ epsilonBody := by
          rintro rfl
          cases (List.append_eq_nil_iff.mp hbody.symm).2
        rw [spelled_of_mem_rulesOf mem hne] at hbody
        rw [hbody] at mem
        refine ⟨unread :: levels, .inside mem hnested, ?_⟩
        rw [List.flatten_cons, hright]
        simpa using hderives.around unread []
      · refine ih (l ++ .nonterminal n :: k) a right ?_
        rw [hr, List.append_assoc, List.cons_append]

/-- Exact lookahead sets make a complete table. -/
theorem ExactLookahead.completeTable (he : g.ExactLookahead) (hg : g.Closed) :
    g.CompleteTable := by
  intro left a right body t rest hleft hbody ⟨hderives, hword⟩
  have hs := he.headsStay hg
  have ha := mem_vars_of_mem_rulesOf hbody
  obtain ⟨levels, hnested, hright⟩ := exists_nested hleft left a right rfl
  obtain ⟨own, after, hnext, hown, hafter⟩ := (Yields.of_derives hderives hword.yields).split
  rw [yields_spelled] at hown
  refine ActionTable.mem_cell_iff.mpr ⟨hbody, ?_⟩
  cases own with
  | cons u own =>
    obtain ⟨rfl, -⟩ := List.cons.inj hnext
    obtain ⟨x, hx, ht⟩ := hs.exists_leads hg hbody hown
    have hne : t ≠ .epsilon := by
      intro e
      have hterminal := hword t List.mem_cons_self
      rw [e] at hterminal
      cases hterminal
    exact mem_predictors_of_first hx ht hne
  | nil =>
    rw [List.nil_append] at hnext
    rw [← hnext] at hafter
    rw [hs.eq_epsilonBody hbody hown]
    exact hg.mem_predictors_epsilonBody.mpr
      (he.mem_follow hg hnested ha (Yields.of_derives hright hafter))

/-- Sums are reduced to a grammar with exact lookahead sets and a table without
conflicts. -/
theorem exists_reduce_sums : ∃ r, sums.reduce {} = .ok r ∧ r.Closed ∧
    (ActionTable.ofGrammar r).isLL 1 = true ∧ r.ExactLookahead := by
  have hrun : (sums.reduce {}).toOption.map (fun r =>
      (r.rules.entries.all fun entry => entry.2.all r.looksAhead,
        (ActionTable.ofGrammar r).isLL 1)) = some (true, true) := by
    decide +kernel
  obtain ⟨r, hr, hrest⟩ := exists_ok_of_toOption hrun
  obtain ⟨hahead, hll⟩ := Prod.mk.inj hrest
  have hclosed := (sums_closed.reduce hr).1
  exact ⟨r, hr, hclosed, hll, hclosed.exactLookahead hahead⟩

/-- Where leading symbols stay, their FIRST sets tell it. -/
theorem HeadsStay.startsFirmly (hs : g.HeadsStay) (hg : g.Closed) (a : Symbol) :
    g.StartsFirmly a := by
  have stays : ∀ n b y, Heads g.rulesOf b y → ¬g.Leads n y .epsilon := by
    intro n
    induction n with
    | zero =>
      intro b y ⟨body, hbody, hne, hy⟩ hl
      cases hl
      exact epsilon_notMem hbody hne (List.mem_of_head? hy)
    | succ n ih =>
      intro b y hy hl
      cases hl with
      | @step _ _ z _ body mem head tail =>
        have hne : body ≠ epsilonBody := fun e => hs b y hy (e ▸ mem)
        exact ih y z ⟨body, mem, hne, head⟩ tail
  intro body hbody hne x hx he
  obtain ⟨n, hn⟩ := hg.firstSets.leads hg he
  exact stays n a x ⟨body, hbody, hne, hx⟩ hn

end Grammar

namespace Parser

/-- The conditions under which the next unit determines the alternative of a
variable in progress. -/
structure Predictive (p : Parser) : Prop extends Unequivocal p where
  /-- The table holds all alternatives that derivations need. -/
  complete : p.grammar.CompleteTable
  /-- No alternative begins with a symbol that can vanish. -/
  heads_stay : p.grammar.HeadsStay
  /-- No terminal of a body has the unit of the end marker. -/
  unit_ne_end : ∀ t, t.isTerminal = true → p.grammar.Occurs t → p.unitOf t ≠ p.stream.endUnit

variable {p : Parser}

/-- Exact lookahead sets let the next unit determine the alternative. -/
theorem Deterministic.predictive (d : p.Deterministic) : p.Predictive where
  closed := d.closed
  table_eq := d.table_eq
  isLL := d.isLL
  unit_injective := d.unit_injective
  complete := d.exact.completeTable d.closed
  heads_stay := d.exact.headsStay d.closed
  unit_ne_end := d.unit_ne_end

namespace Predictive

/-- No set of terminals meets the unit of the end marker. -/
theorem not_meets_endUnit (d : p.Predictive) {s : SymbolSet}
    (h : ∀ b ∈ s, b ≠ .epsilon → b.isTerminal = true ∧ p.grammar.Occurs b) :
    p.meets s p.stream.endUnit = false := by
  rw [← Bool.not_eq_true, meets_iff]
  intro ⟨b, hb, hne, hu⟩
  obtain ⟨hterminal, hoccurs⟩ := h b hb hne
  exact d.unit_ne_end b hterminal hoccurs hu

/-- At the end marker the empty string is selected, if it is an alternative. -/
theorem select_endUnit (d : p.Predictive) {a : Symbol} (hv : epsilonBody ∈ p.grammar.rulesOf a) :
    ∃ i, p.select a p.stream.endUnit = some i ∧
      (p.grammar.rulesOf a)[i]? = some epsilonBody := by
  refine select_of_end (d.not_meets_endUnit fun b hm hne => ?_) (fun other ho => ?_) hv
  · rw [d.follow_eq] at hm
    obtain ⟨hvar, -, hoccurs⟩ := d.closed.followSets.mem_members hm
    exact ⟨d.closed.isTerminal_of_occurs hoccurs hvar hne, hoccurs⟩
  · rw [← Bool.not_eq_true]
    intro hm
    obtain ⟨y, u, hy, hu, hune, hunit⟩ := exists_lookup_of_meets d.closed d.table_eq ho hm
    obtain ⟨hterminal, hoccurs⟩ := d.closed.terminal_of_lookup ho hy hu hune
    exact d.unit_ne_end u hterminal hoccurs hunit

/-- The alternative that a derivation uses is the selected one: its string,
with what the unread symbols yield and the end marker behind it, decides by the
unit that comes first. -/
theorem select_of_yields (d : p.Predictive) {a : Symbol} {levels : List Body}
    (hn : p.grammar.Nested a levels) {body : Body} (hb : body ∈ p.grammar.rulesOf a)
    {own after : List Symbol} (hown : Yields p.grammar.rulesOf body own)
    (hafter : Yields p.grammar.rulesOf levels.flatten after) :
    ∃ i, p.select a (p.unitAhead (own ++ after)) = some i ∧
      (p.grammar.rulesOf a)[i]? = some body := by
  cases hnext : own ++ after with
  | cons t rest =>
    have hcell := d.complete.mem_cell d.closed hn hb hown hafter hnext
    rw [← d.table_eq] at hcell
    exact d.exists_select_of_mem_cell (d.heads_stay.startsFirmly d.closed a) hcell
  | nil =>
    rw [(List.append_eq_nil_iff.mp hnext).1] at hown
    have heps := d.heads_stay.eq_epsilonBody hb hown
    rw [heps] at hb ⊢
    exact d.select_endUnit hb

end Predictive

end Parser

end PredictiveParsing
