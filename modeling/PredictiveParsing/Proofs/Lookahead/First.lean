import PredictiveParsing.Lookahead.First
import PredictiveParsing.Proofs.Grammar.Validity
import PredictiveParsing.Proofs.Stabilize

/-!
# FIRST sets are exact

A variable leads to the leading symbol of each of its alternatives, that
symbol leads on if it is a variable, and a chain ends at a symbol that is no
variable. The FIRST set of a variable holds the ends of all chains that begin
at it, and nothing else: the passes stop at a table that demands nothing more,
and a table never holds more than chains justify.
-/

namespace PredictiveParsing.Grammar

/-- A chain of leading symbols of a length, from a symbol to one that is no
variable. -/
inductive Leads (g : Grammar) : Nat → Symbol → Symbol → Prop
  /-- A symbol that is no variable is where it ends. -/
  | self {x : Symbol} (notMem : x ∉ g.vars) : Leads g 0 x x
  /-- A variable leads to what the first symbol of an alternative leads
  to. -/
  | step {n : Nat} {a x t : Symbol} {body : Body} (mem : body ∈ g.rulesOf a)
      (head : body.head? = some x) (tail : Leads g n x t) : Leads g (n + 1) a t

/-- A symbol that stands in some body. -/
def Occurs (g : Grammar) (x : Symbol) : Prop := ∃ a, ∃ body ∈ g.rulesOf a, x ∈ body

variable {g : Grammar}

/-- A chain ends at a symbol that is no variable. -/
theorem Leads.notMem {n : Nat} {a t : Symbol} (h : g.Leads n a t) : t ∉ g.vars := by
  induction h with
  | self notMem => exact notMem
  | step _ _ _ ih => exact ih

/-- A chain ends where it begins or in a body. -/
theorem Leads.eq_or_occurs {n : Nat} {a t : Symbol} (h : g.Leads n a t) : t = a ∨ g.Occurs t := by
  induction h with
  | self => exact .inl rfl
  | @step n a x t body mem head _ ih =>
    refine .inr (ih.elim (fun e => ?_) id)
    rw [e]
    exact ⟨a, body, mem, List.mem_of_head? head⟩

/-- A symbol of a body is a terminal unless it is a variable or the empty
string. -/
theorem Closed.isTerminal_of_occurs (hg : g.Closed) {x : Symbol} (h : g.Occurs x)
    (hv : x ∉ g.vars) (hne : x ≠ .epsilon) : x.isTerminal = true := by
  obtain ⟨a, body, hbody, hx⟩ := h
  cases x with
  | epsilon => exact absurd rfl hne
  | terminal t => rfl
  | nonterminal n => exact absurd (hg.body_declared a body hbody _ hx rfl) hv

/-- The leading symbols of alternatives. -/
theorem mem_leadings {a x : Symbol} :
    (a, x) ∈ g.leadings ↔ ∃ body ∈ g.rulesOf a, body.head? = some x := by
  rw [leadings, List.mem_flatMap]
  constructor
  · intro ⟨b, _, hb⟩
    obtain ⟨body, hbody, hx⟩ := List.mem_filterMap.mp hb
    obtain ⟨y, hy, he⟩ := Option.map_eq_some_iff.mp hx
    have hb := (Prod.mk.inj he).1
    have hx := (Prod.mk.inj he).2
    exact ⟨body, hb ▸ hbody, hx ▸ hy⟩
  · intro ⟨body, hbody, hx⟩
    refine ⟨a, mem_displayOrder.mpr (mem_vars_of_mem_rulesOf hbody), ?_⟩
    exact List.mem_filterMap.mpr ⟨body, hbody, by rw [hx, Option.map_some]⟩

/-- The variables are analysed. -/
theorem mem_analysedSymbols_of_mem_vars {a : Symbol} (h : a ∈ g.vars) : a ∈ g.analysedSymbols :=
  SymbolSet.mem_insert.mpr (.inr (SymbolSet.mem_union.mpr (.inr h)))

/-- The analysed nonterminals are variables. -/
theorem Closed.mem_vars_of_mem_analysedSymbols (hg : g.Closed) {a : Symbol}
    (h : a ∈ g.analysedSymbols) (hk : a.isNonterminal = true) : a ∈ g.vars := by
  rcases SymbolSet.mem_insert.mp h with rfl | h
  · cases hk
  · refine (SymbolSet.mem_union.mp h).resolve_left fun ht => ?_
    have hterminal := hg.terminals_terminal a ht
    cases a <;> cases hk
    cases hterminal

/-- What holds of the FIRST sets after every pass. -/
structure FirstSets (g : Grammar) (t : FirstTable) : Prop where
  /-- The analysed symbols have a set. -/
  keys : t.keys = g.analysedSymbols.members
  /-- Members are ends of chains. -/
  sound : ∀ a s, t.get? a = some s → ∀ x ∈ s, ∃ n, g.Leads n a x
  /-- Symbols other than variables have themselves. -/
  fixed : ∀ a ∈ g.analysedSymbols, a ∉ g.vars → t.get? a = some (.singleton a)

/-- The analysed symbols, and no others, have a set. -/
theorem FirstSets.mem_keys_iff {t : FirstTable} (h : g.FirstSets t) {a : Symbol} :
    a ∈ t.keys ↔ a ∈ g.analysedSymbols := by
  rw [h.keys, SymbolSet.mem_members]

/-- An analysed symbol has a set. -/
theorem FirstSets.exists_get? {t : FirstTable} (h : g.FirstSets t) {a : Symbol}
    (ha : a ∈ g.analysedSymbols) : ∃ s, t.get? a = some s :=
  SymbolTable.mem_keys_iff.mp (h.mem_keys_iff.mpr ha)

/-- What is looked up ends a chain. -/
theorem FirstSets.leads (hg : g.Closed) {t : FirstTable} (h : g.FirstSets t) {a x : Symbol}
    (hx : x ∈ t.lookup a) : ∃ n, g.Leads n a x := by
  rw [FirstTable.lookup] at hx
  cases ht : t.get? a with
  | some s =>
    rw [ht] at hx
    exact h.sound a s ht x hx
  | none =>
    rw [ht] at hx
    dsimp only at hx
    split at hx
    · exact absurd hx (SymbolSet.not_mem_empty x)
    · next hk =>
      rw [SymbolSet.mem_singleton.mp hx]
      exact ⟨0, .self fun hv => hk (hg.vars_nonterminal a hv)⟩

/-- Before the first pass every symbol that is no variable has itself. -/
theorem firstSets_initialFirst (g : Grammar) : g.FirstSets g.initialFirst := by
  refine ⟨?_, fun a s hs x hx => ?_, fun a ha hv => ?_⟩
  · rw [initialFirst, SymbolTable.tabulate, SymbolTable.keys, List.map_map]
    exact List.map_id g.analysedSymbols.members
  · rw [initialFirst, SymbolTable.get?_tabulate] at hs
    split at hs
    · rw [← Option.some.inj hs] at hx
      split at hx
      · exact absurd hx (SymbolSet.not_mem_empty x)
      · next hv =>
        rw [SymbolSet.mem_singleton.mp hx]
        exact ⟨0, .self hv⟩
    · cases hs
  · rw [initialFirst, SymbolTable.get?_tabulate, if_pos ha, if_neg hv]

/-- What a leading symbol adds is justified. -/
theorem FirstSets.absorb (hg : g.Closed) {t : FirstTable} (h : g.FirstSets t)
    {leading : Symbol × Symbol} (hl : leading ∈ g.leadings) :
    g.FirstSets (t.absorb leading) := by
  obtain ⟨a, b⟩ := leading
  obtain ⟨body, hbody, hhead⟩ := mem_leadings.mp hl
  have hvar := mem_vars_of_mem_rulesOf hbody
  refine ⟨?_, fun c s hs x hx => ?_, fun c hc hv => ?_⟩
  · rw [FirstTable.absorb, SymbolTable.keys_modify, h.keys]
  · rw [FirstTable.absorb, SymbolTable.get?_modify] at hs
    split at hs
    · next e =>
      obtain ⟨old, hold, hnew⟩ := Option.map_eq_some_iff.mp hs
      rw [← hnew, SymbolSet.mem_union] at hx
      rw [← e]
      rcases hx with hx | hx
      · exact h.sound a old hold x hx
      · obtain ⟨n, hn⟩ := h.leads hg hx
        exact ⟨n + 1, .step hbody hhead hn⟩
    · exact h.sound c s hs x hx
  · have hne : a ≠ c := by
      intro e
      exact hv (e ▸ hvar)
    rw [FirstTable.absorb, SymbolTable.get?_modify, if_neg hne, h.fixed c hc hv]

/-- A leading symbol adds nothing, or the sets grow. -/
theorem absorb_eq_or_weight_lt (t : FirstTable) (leading : Symbol × Symbol) :
    t.absorb leading = t ∨
      t.weight SymbolSet.size < (t.absorb leading).weight SymbolSet.size := by
  rw [FirstTable.absorb, SymbolTable.modify]
  cases hs : t.get? leading.1 with
  | none => exact .inl rfl
  | some s =>
    have hweight := SymbolTable.weight_set SymbolSet.size hs (s ∪ t.lookup leading.2)
    rcases SymbolSet.union_eq_self_or_size_lt s (t.lookup leading.2) with heq | hlt
    · refine .inl ?_
      dsimp only
      rw [heq]
      exact SymbolTable.set_eq_self hs
    · exact .inr (by dsimp only; omega)

/-- A set of analysed symbols and symbols of bodies has a bounded size. -/
theorem size_le_of_analysed {s : SymbolSet}
    (h : ∀ x ∈ s, x ∈ g.analysedSymbols ∨ g.Occurs x) :
    s.size ≤ g.analysedSymbols.size + g.bodySymbols := by
  have hlength := SymbolSet.size_le_length (s := s)
    (l := g.analysedSymbols.members ++ g.symbolsOfBodies) fun x hx => by
      rcases h x hx with ha | ⟨a, body, hbody, hocc⟩
      · exact List.mem_append_left _ ha
      · exact List.mem_append_right _ (mem_symbolsOfBodies hbody hocc)
  rw [List.length_append] at hlength
  exact hlength

/-- The sets stay within the bound. -/
theorem FirstSets.weight_le {t : FirstTable} (h : g.FirstSets t) :
    t.weight SymbolSet.size ≤ g.analysisBound := by
  have hsize : ∀ a s, t.get? a = some s → s.size ≤ g.analysedSymbols.size + g.bodySymbols := by
    intro a s hs
    refine size_le_of_analysed fun x hx => ?_
    obtain ⟨n, hn⟩ := h.sound a s hs x hx
    rcases hn.eq_or_occurs with e | ho
    · refine .inl ?_
      rw [e]
      exact h.mem_keys_iff.mp (SymbolTable.mem_keys_iff.mpr ⟨s, hs⟩)
    · exact .inr ho
  have hweight := SymbolTable.weight_le hsize
  rw [h.keys] at hweight
  exact hweight

/-- The FIRST sets of a closed grammar are justified by chains. -/
theorem Closed.firstSets (hg : g.Closed) : g.FirstSets g.firstTable :=
  stabilize_induction
    (foldl_keeps fun _ ht _ hl => ht.absorb hg hl) _ _ (firstSets_initialFirst g)

/-- The FIRST sets of a closed grammar demand nothing more. -/
theorem Closed.absorb_firstTable (hg : g.Closed) :
    ∀ leading ∈ g.leadings, g.firstTable.absorb leading = g.firstTable :=
  stabilize_pass (fun _ ht _ hl => FirstSets.absorb hg ht hl)
    (fun t _ leading _ => absorb_eq_or_weight_lt t leading)
    (fun _ ht => ht.weight_le) g.initialFirst (firstSets_initialFirst g)

/-- The FIRST set of a variable holds that of the leading symbol of each
alternative. -/
theorem Closed.lookup_subset (hg : g.Closed) {a x : Symbol} {body : Body}
    (hbody : body ∈ g.rulesOf a) (hx : body.head? = some x) :
    g.firstTable.lookup x ⊆ g.firstTable.lookup a := by
  have ha := mem_analysedSymbols_of_mem_vars (mem_vars_of_mem_rulesOf hbody)
  obtain ⟨s, hs⟩ := hg.firstSets.exists_get? ha
  have hfixed := hg.absorb_firstTable (a, x) (mem_leadings.mpr ⟨body, hbody, hx⟩)
  have hget : (g.firstTable.absorb (a, x)).get? a = some (s ∪ g.firstTable.lookup x) := by
    rw [FirstTable.absorb, SymbolTable.get?_modify, if_pos rfl, hs, Option.map_some]
  rw [hfixed, hs] at hget
  have heq : s = s ∪ g.firstTable.lookup x := Option.some.inj hget
  have hlookup : g.firstTable.lookup a = s := by rw [FirstTable.lookup, hs]
  intro t ht
  rw [hlookup, heq]
  exact SymbolSet.mem_union.mpr (.inr ht)

/-- A table of the analysed symbols that leaves those that are no variables as
they are gives every symbol that is no nonterminal itself. -/
theorem Closed.lookup_eq_singleton_of_fixed (hg : g.Closed) {t : FirstTable}
    (hkeys : ∀ a ∈ t.keys, a ∈ g.analysedSymbols)
    (hfixed : ∀ a ∈ g.analysedSymbols, a ∉ g.vars → t.get? a = some (.singleton a)) {x : Symbol}
    (hx : x.isNonterminal = false) : t.lookup x = .singleton x := by
  have hvar : x ∉ g.vars := by
    intro hv
    rw [hg.vars_nonterminal x hv] at hx
    cases hx
  rw [FirstTable.lookup]
  cases hget : t.get? x with
  | none =>
    dsimp only
    rw [hx]
    rfl
  | some s =>
    have hkey := hkeys x (SymbolTable.mem_keys_iff.mpr ⟨s, hget⟩)
    rw [hfixed x hkey hvar] at hget
    exact (Option.some.inj hget).symm

/-- A symbol that is no nonterminal has itself as its FIRST set. -/
theorem Closed.lookup_eq_singleton (hg : g.Closed) {x : Symbol} (hx : x.isNonterminal = false) :
    g.firstTable.lookup x = .singleton x :=
  hg.lookup_eq_singleton_of_fixed (fun _ => hg.firstSets.mem_keys_iff.mp) hg.firstSets.fixed hx

/-- The FIRST set of a variable with the empty alternative has the empty
string. -/
theorem Closed.epsilon_mem_lookup_of_rule (hg : g.Closed) {a : Symbol}
    (h : epsilonBody ∈ g.rulesOf a) : .epsilon ∈ g.firstTable.lookup a := by
  refine hg.lookup_subset h rfl .epsilon ?_
  rw [hg.lookup_eq_singleton rfl]
  exact SymbolSet.mem_singleton.mpr rfl

/-- A table that gives every symbol that is no nonterminal itself, and every
variable what it gives to the leading symbols of its alternatives, has the ends
of all chains, where nonterminals are variables. -/
theorem Leads.mem_lookup (hg : g.Closed) {table : FirstTable}
    (hself : ∀ x, x.isNonterminal = false → x ∈ table.lookup x)
    (hleading : ∀ leading ∈ g.leadings, table.lookup leading.2 ⊆ table.lookup leading.1)
    {n : Nat} {a t : Symbol} (h : g.Leads n a t) (ha : a.isNonterminal = true → a ∈ g.vars) :
    t ∈ table.lookup a := by
  induction h with
  | @self x notMem =>
    refine hself x ?_
    rw [← Bool.not_eq_true]
    exact fun hk => notMem (ha hk)
  | @step n a x t body mem head _ ih =>
    refine hleading (a, x) (mem_leadings.mpr ⟨body, mem, head⟩) t (ih fun hk => ?_)
    exact hg.body_declared a body mem x (List.mem_of_head? head) hk

/-- The ends of chains are looked up, where nonterminals are variables. -/
theorem Closed.mem_lookup_of_leads (hg : g.Closed) {n : Nat} {a t : Symbol} (h : g.Leads n a t)
    (ha : a.isNonterminal = true → a ∈ g.vars) : t ∈ g.firstTable.lookup a := by
  refine h.mem_lookup hg (fun x hx => ?_) (fun leading hl => ?_) ha
  · rw [hg.lookup_eq_singleton hx]
    exact SymbolSet.mem_singleton.mpr rfl
  · obtain ⟨body, hbody, hx⟩ := mem_leadings.mp (show (leading.1, leading.2) ∈ g.leadings from hl)
    exact hg.lookup_subset hbody hx

/-- The FIRST set of a symbol of a closed grammar holds the ends of its
chains. -/
theorem Closed.mem_lookup_iff (hg : g.Closed) {a t : Symbol}
    (ha : a.isNonterminal = true → a ∈ g.vars) :
    t ∈ g.firstTable.lookup a ↔ ∃ n, g.Leads n a t :=
  ⟨fun h => hg.firstSets.leads hg h, fun ⟨_, h⟩ => hg.mem_lookup_of_leads h ha⟩

end PredictiveParsing.Grammar
