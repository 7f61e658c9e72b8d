import PredictiveParsing.Proofs.Grammar.Names
import PredictiveParsing.Proofs.Lookahead.Followers
import PredictiveParsing.Proofs.Lookahead.Lookups

/-!
# The sets where the passes end

The passes over the rules end by themselves. The FIRST sets where they end are
the least ones that satisfy their equations: a terminal and the empty string
have themselves, and a variable has what the leading symbols of its
alternatives have. What a set holds can be told by chains of symbols. A symbol
is in the FIRST set of a variable if leading symbols of alternatives, one after
the other, lead to it. It is in the FOLLOW set of a variable if it can come next
after the last of several variables of which each can end an alternative of the
one behind it; the start symbol breaks such a chain.
-/

namespace PredictiveParsing.Grammar

variable {g : Grammar} {a b t x y z : Symbol} {n : Nat}

/-! ### FIRST sets -/

/-- An alternative of a variable begins with a symbol. -/
def Begins (g : Grammar) (a x : Symbol) : Prop := ∃ body ∈ g.rulesOf a, body.head? = some x

/-- The equations of FIRST sets. -/
structure FirstEquations (g : Grammar) (table : FirstTable) : Prop where
  /-- The analysed symbols, and no others, have a set. -/
  mem_keys_iff : ∀ a, a ∈ table.keys ↔ a ∈ g.analysedSymbols
  /-- Analysed symbols that are no variables have themselves. -/
  fixed : ∀ a ∈ g.analysedSymbols, a ∉ g.vars → table.get? a = some (.singleton a)
  /-- Variables have what the leading symbols of their alternatives have. -/
  collected : ∀ a ∈ g.vars, ∀ t, t ∈ table.lookup a ↔ ∃ x, g.Begins a x ∧ t ∈ table.lookup x

/-- Where a chain does not end at once, it ends at the leading symbol of an
alternative to which leading symbols lead. -/
theorem Leads.exists_chain (h : g.Leads n a t) :
    t = a ∨ ∃ b, Relation.ReflTransGen g.Begins a b ∧ g.Begins b t := by
  induction h with
  | self => exact .inl rfl
  | @step n a x t body mem head _ ih =>
    rcases ih with rfl | ⟨b, hchain, hlast⟩
    · exact .inr ⟨a, .refl, body, mem, head⟩
    · exact .inr ⟨b, .head ⟨body, mem, head⟩ hchain, hlast⟩

/-- Leading symbols make a chain if they end at a symbol that is no variable. -/
theorem exists_leads_of_chain (h : Relation.ReflTransGen g.Begins a b) (hlast : g.Begins b t)
    (hvar : t ∉ g.vars) : ∃ n, g.Leads n a t := by
  induction h using Relation.ReflTransGen.head_induction_on with
  | refl =>
    obtain ⟨body, mem, head⟩ := hlast
    exact ⟨1, .step mem head (.self hvar)⟩
  | head hfirst _ ih =>
    obtain ⟨body, mem, head⟩ := hfirst
    obtain ⟨n, hn⟩ := ih
    exact ⟨n + 1, .step mem head hn⟩

/-- The FIRST set of a variable holds the terminals, and the empty string, to
which leading symbols lead. -/
theorem Closed.mem_first_iff_chain (hg : g.Closed) (ha : a ∈ g.vars) :
    t ∈ g.firstTable.lookup a ↔
      t.isNonterminal = false ∧ ∃ b, Relation.ReflTransGen g.Begins a b ∧ g.Begins b t := by
  rw [hg.mem_lookup_iff fun _ => ha]
  constructor
  · intro ⟨n, hn⟩
    rcases hn.exists_chain with rfl | ⟨b, hchain, body, mem, head⟩
    · exact absurd ha hn.notMem
    · refine ⟨?_, b, hchain, body, mem, head⟩
      rw [← Bool.not_eq_true]
      exact fun hk => hn.notMem (hg.body_declared b body mem t (List.mem_of_head? head) hk)
  · intro ⟨hkind, b, hchain, hlast⟩
    refine exists_leads_of_chain hchain hlast fun hvar => ?_
    rw [hg.vars_nonterminal t hvar] at hkind
    cases hkind

/-- The FIRST sets satisfy their equations. -/
theorem Closed.firstEquations (hg : g.Closed) : g.FirstEquations g.firstTable where
  mem_keys_iff := fun _ => hg.firstSets.mem_keys_iff
  fixed := hg.firstSets.fixed
  collected := fun a ha t => by
    constructor
    · intro h
      obtain ⟨n, hn⟩ := hg.firstSets.leads hg h
      cases hn with
      | self notMem => exact absurd ha notMem
      | @step n _ x _ body mem head tail =>
        refine ⟨x, ⟨body, mem, head⟩, hg.mem_lookup_of_leads tail ?_⟩
        exact hg.body_declared a body mem x (List.mem_of_head? head)
    · intro ⟨x, ⟨body, mem, head⟩, ht⟩
      exact hg.lookup_subset mem head t ht

/-- Sets that satisfy the equations hold what the FIRST sets hold. -/
theorem FirstEquations.lookup_subset (hg : g.Closed) {table : FirstTable}
    (h : g.FirstEquations table) (ha : a ∈ g.analysedSymbols) :
    g.firstTable.lookup a ⊆ table.lookup a := by
  have hself : ∀ x, x.isNonterminal = false → x ∈ table.lookup x := by
    intro x hx
    rw [hg.lookup_eq_singleton_of_fixed (fun a => (h.mem_keys_iff a).mp) h.fixed hx]
    exact SymbolSet.mem_singleton.mpr rfl
  have hleading : ∀ leading ∈ g.leadings, table.lookup leading.2 ⊆ table.lookup leading.1 := by
    intro ⟨b, x⟩ hl t ht
    obtain ⟨body, mem, head⟩ := mem_leadings.mp hl
    exact (h.collected b (mem_vars_of_mem_rulesOf mem) t).mpr ⟨x, ⟨body, mem, head⟩, ht⟩
  intro t ht
  obtain ⟨n, hn⟩ := hg.firstSets.leads hg ht
  exact hn.mem_lookup hg hself hleading (hg.mem_vars_of_mem_analysedSymbols ha)

/-- The passes over the FIRST sets end by themselves. -/
theorem Closed.settles_firstTable (hg : g.Closed) :
    Settles g.firstPass g.initialFirst g.firstTable := by
  have total : ∀ t, g.FirstSets t → g.firstPass t = .ok (g.firstStep t) := fun t ht =>
    firstPass_eq_ok fun a ha => ht.mem_keys_iff.mpr (mem_analysedSymbols_of_mem_vars ha)
  exact settles_pass total (fun _ ht _ hl => ht.absorb hg hl)
    (fun t _ leading _ => absorb_eq_or_weight_lt t leading) (fun _ ht => ht.weight_le)
    g.initialFirst (firstSets_initialFirst g)

/-- The passes over the FIRST sets end by themselves, at the sets of the grammar
and at no others, and a further pass changes nothing. The sets satisfy their
equations, and every solution of the equations holds what they hold. A variable
has the leading symbols, other than variables, of its alternatives and of those
of the variables to which leading symbols lead from it, and nothing else; a
declared terminal has itself. -/
theorem Closed.first_least (hg : g.Closed) :
    (∀ table, Settles g.firstPass g.initialFirst table ↔ table = g.firstTable) ∧
    g.FirstEquations g.firstTable ∧
    (∀ table, g.FirstEquations table →
      ∀ a ∈ g.analysedSymbols, g.firstTable.lookup a ⊆ table.lookup a) ∧
    (∀ a ∈ g.vars, ∃ s, g.firstTable.get? a = some s ∧
      ∀ t, t ∈ s ↔ t.isNonterminal = false ∧
        ∃ b, Relation.ReflTransGen g.Begins a b ∧ g.Begins b t) ∧
    (∀ a ∈ g.terminals, g.firstTable.get? a = some (.singleton a)) ∧
    g.firstPass g.firstTable = .ok g.firstTable := by
  have hends := hg.settles_firstTable
  refine ⟨fun table => ⟨hends.unique, fun e => e ▸ hends⟩, hg.firstEquations,
    fun table h a ha => h.lookup_subset hg ha, fun a ha => ?_, fun a ha => ?_, hends.step_eq⟩
  · obtain ⟨s, hs⟩ := hg.firstSets.exists_get? (mem_analysedSymbols_of_mem_vars ha)
    have hlookup : g.firstTable.lookup a = s := by rw [FirstTable.lookup, hs]
    exact ⟨s, hs, fun t => hlookup ▸ hg.mem_first_iff_chain ha⟩
  · have hanalysed : a ∈ g.analysedSymbols :=
      SymbolSet.mem_insert.mpr (.inr (SymbolSet.mem_union.mpr (.inl ha)))
    have hvar := hg.notMem_vars_of_isTerminal (hg.terminals_terminal a ha)
    exact hg.firstSets.fixed a hanalysed hvar

/-- Two kinds of lists that begin with each other; `z` is not declared. -/
def crossedLists : Grammar :=
  ⟨componentsOfNames ["A", "B"] ["x", "y"]
    [("A", [["B", "x"], ["epsilon"]]), ("B", [["A", "y"], ["z"]])] "A" none,
    by decide +kernel⟩

theorem crossedLists_closed : crossedLists.Closed := closed_of_componentsOfNames rfl

/-- Lists of the one kind can begin with `z` through those of the other kind.
They can begin with `y` as well, but no alternative begins with it. -/
theorem first_least_crossedLists : crossedLists.Closed ∧
    Settles crossedLists.firstPass crossedLists.initialFirst crossedLists.firstTable ∧
    .terminal "z" ∉ crossedLists.terminals ∧
    ∃ s, crossedLists.firstTable.get? (.nonterminal "A") = some s ∧
      .terminal "z" ∈ s ∧ .epsilon ∈ s ∧ .terminal "y" ∉ s := by
  obtain ⟨hends, -, -, hsets, -, -⟩ := crossedLists_closed.first_least
  obtain ⟨s, hs, hmem⟩ := hsets (.nonterminal "A") (by decide +kernel)
  have hfirst : crossedLists.Begins (.nonterminal "A") (.nonterminal "B") :=
    ⟨[.nonterminal "B", .terminal "x"], by decide +kernel, rfl⟩
  have hz : crossedLists.Begins (.nonterminal "B") (.terminal "z") :=
    ⟨[.terminal "z"], by decide +kernel, rfl⟩
  have hempty : crossedLists.Begins (.nonterminal "A") .epsilon :=
    ⟨epsilonBody, by decide +kernel, rfl⟩
  have hnone : ∀ a, ∀ body ∈ crossedLists.rulesOf a,
      decide (body.head? ≠ some (.terminal "y")) = true :=
    Components.forall_mem_rulesOf_of_all (by decide +kernel)
  refine ⟨crossedLists_closed, (hends _).mpr rfl, by decide +kernel, s, hs,
    (hmem _).mpr ⟨rfl, _, .single hfirst, hz⟩, (hmem _).mpr ⟨rfl, _, .refl, hempty⟩, fun hy => ?_⟩
  obtain ⟨-, b, -, body, hbody, hhead⟩ := (hmem _).mp hy
  exact of_decide_eq_true (hnone b body hbody) hhead

/-! ### FOLLOW sets -/

/-- A variable can end an alternative of another one, which is not the start
symbol: it stands last, or right before a symbol whose FIRST set has the empty
string. -/
def Inherits (g : Grammar) (x b : Symbol) : Prop :=
  b ≠ g.start ∧ ∃ left rest, left ++ x :: rest ∈ g.rulesOf b ∧
    ∀ y ∈ rest.head?, .epsilon ∈ g.firstTable.lookup y

/-- A symbol stands right before another one in some alternative. -/
def Precedes (g : Grammar) (x y : Symbol) : Prop :=
  ∃ b left rest, left ++ x :: y :: rest ∈ g.rulesOf b

/-- The start symbol is followed by nothing. -/
theorem Follows.ne_start (h : g.Follows x t) : x ≠ g.start := by
  cases h with
  | next _ _ ne => exact ne
  | last _ _ ne => exact ne
  | vanishing _ _ ne => exact ne

/-- What follows a variable comes next after the last one of a chain of
variables that hand it on. -/
theorem Closed.exists_chain_of_follows (hg : g.Closed) (h : g.Follows x t) :
    ∃ z y, Relation.ReflTransGen g.Inherits x z ∧ g.Precedes z y ∧
      t ∈ g.firstTable.lookup y ∧ t ≠ .epsilon := by
  induction h with
  | @next b x y t left rest n mem _ _ leads notEmpty =>
    exact ⟨x, y, .refl, ⟨b, left, rest, mem⟩, hg.mem_lookup_of_next mem leads, notEmpty⟩
  | @last b x t left mem _ _ outer ih =>
    obtain ⟨z, y, hchain, hnext⟩ := ih
    have hends : ∀ w ∈ ([] : Body).head?, .epsilon ∈ g.firstTable.lookup w :=
      fun w hw => by cases hw
    exact ⟨z, y, .head ⟨outer.ne_start, left, [], mem, hends⟩ hchain, hnext⟩
  | @vanishing b x v t left rest n mem _ _ leads outer ih =>
    obtain ⟨z, y, hchain, hnext⟩ := ih
    have hends : ∀ w ∈ (v :: rest).head?, .epsilon ∈ g.firstTable.lookup w :=
      fun w hw => Option.some.inj hw ▸ hg.mem_lookup_of_next mem leads
    exact ⟨z, y, .head ⟨outer.ne_start, left, v :: rest, mem, hends⟩ hchain, hnext⟩

/-- What comes next after the last one of a chain of variables follows the
first one. -/
theorem Closed.follows_of_chain (hg : g.Closed) (h : Relation.ReflTransGen g.Inherits x z)
    (hz : g.Precedes z y) (ht : t ∈ g.firstTable.lookup y) (hempty : t ≠ .epsilon)
    (hx : x ∈ g.vars) (hne : x ≠ g.start) : g.Follows x t := by
  induction h using Relation.ReflTransGen.head_induction_on with
  | refl =>
    obtain ⟨b, left, rest, mem⟩ := hz
    obtain ⟨n, hn⟩ := hg.firstSets.leads hg ht
    exact .next mem hx hne hn hempty
  | @head x b hfirst _ ih =>
    obtain ⟨hstart, left, rest, mem, hends⟩ := hfirst
    have outer := ih (mem_vars_of_mem_rulesOf mem) hstart
    cases rest with
    | nil => exact .last mem hx hne outer
    | cons v rest =>
      obtain ⟨n, hn⟩ := hg.firstSets.leads hg (hends v rfl)
      exact .vanishing mem hx hne hn outer

/-- The passes over the FOLLOW sets end by themselves. -/
theorem Closed.settles_followTable (hg : g.Closed) :
    Settles (g.followPass g.firstTable) g.initialFollow g.followTable := by
  have total : ∀ t, g.FollowSets t →
      g.followPass g.firstTable t = .ok (g.followStep g.firstTable t) :=
    fun t ht => followPass_eq_ok fun a ha => ht.keys ▸ SymbolSet.mem_members.mpr ha
  exact settles_pass total (fun _ ht _ ho => ht.absorb hg ho)
    (fun t _ o _ => followAbsorb_eq_or_weight_lt g.firstTable t o) (fun _ ht => ht.weight_le)
    g.initialFollow (followSets_initialFollow g)

/-- The passes over the FIRST sets and those over the FOLLOW sets end by
themselves, at the sets of the grammar and at no others, and a further pass
over the FOLLOW sets changes nothing. The start symbol has no FOLLOW set. Any
other variable has, less the empty string, the FIRST sets of the symbols that
come next after a variable, in whatever alternative, to which a chain of
variables leads from it, each of which can end an alternative of the one behind
it; none of them is the start symbol. So the empty string is in no FOLLOW
set. -/
theorem Closed.follow_chained (hg : g.Closed) :
    (∀ first follow, Settles g.firstPass g.initialFirst first ∧
        Settles (g.followPass first) g.initialFollow follow ↔
      first = g.firstTable ∧ follow = g.followTable) ∧
    g.followTable.get? g.start = some none ∧
    (∀ a ∈ g.vars, a ≠ g.start → ∃ s, g.followTable.get? a = some (some s) ∧
      ∀ t, t ∈ s ↔ ∃ z y, Relation.ReflTransGen g.Inherits a z ∧ g.Precedes z y ∧
        t ∈ g.firstTable.lookup y ∧ t ≠ .epsilon) ∧
    (∀ a s, g.followTable.get? a = some (some s) → .epsilon ∉ s) ∧
    g.followPass g.firstTable g.followTable = .ok g.followTable := by
  have hfirst := hg.settles_firstTable
  have hfollow := hg.settles_followTable
  refine ⟨fun first follow => ⟨fun ⟨h, h'⟩ => ?_, fun ⟨h, h'⟩ => ?_⟩, get?_followTable_start g,
    fun a ha hne => ?_, fun a s hs he => (hg.followSets.sound a s hs _ he).2.1 rfl,
    hfollow.step_eq⟩
  · have e := hfirst.unique h
    rw [e] at h'
    exact ⟨e, hfollow.unique h'⟩
  · rw [h, h']
    exact ⟨hfirst, hfollow⟩
  · obtain ⟨s, hs⟩ := hg.followSets.exists_set a ha hne
    refine ⟨s, hs, fun t => ?_⟩
    rw [← members_of_get? hs, hg.mem_follow_iff]
    exact ⟨hg.exists_chain_of_follows,
      fun ⟨z, y, hchain, hz, ht, hempty⟩ => hg.follows_of_chain hchain hz ht hempty ha hne⟩

/-- An else part ends a conditional, which stands before an else part. -/
theorem follow_chained_labelledConditionals : labelledConditionals.Closed ∧
    .nonterminal "E" ≠ labelledConditionals.start ∧
    ∃ s, labelledConditionals.followTable.get? (.nonterminal "E") = some (some s) ∧
      .terminal "else" ∈ s ∧ .epsilon ∉ s := by
  have hne : .nonterminal "E" ≠ labelledConditionals.start := by decide +kernel
  obtain ⟨-, -, hsets, hempty, -⟩ := labelledConditionals_closed.follow_chained
  obtain ⟨s, hs, hmem⟩ := hsets (.nonterminal "E") (by decide +kernel) hne
  have hbody : [.nonterminal "L", .terminal "if", .nonterminal "S", .nonterminal "E"] ∈
      labelledConditionals.rulesOf (.nonterminal "S") := by decide +kernel
  have hends : labelledConditionals.Inherits (.nonterminal "E") (.nonterminal "S") :=
    ⟨by decide +kernel, [.nonterminal "L", .terminal "if", .nonterminal "S"], [], hbody,
      fun y hy => by cases hy⟩
  have hnext : labelledConditionals.Precedes (.nonterminal "S") (.nonterminal "E") :=
    ⟨.nonterminal "S", [.nonterminal "L", .terminal "if"], [], hbody⟩
  have helse : .terminal "else" ∈ labelledConditionals.firstTable.lookup (.nonterminal "E") := by
    decide +kernel
  exact ⟨labelledConditionals_closed, hne, s, hs,
    (hmem _).mpr ⟨_, _, .single hends, hnext, helse, by decide⟩, hempty _ s hs⟩

end PredictiveParsing.Grammar
