import PredictiveParsing.Proofs.Reduction.PrefixRemoval
import PredictiveParsing.Proofs.Reduction.UselessRemoval
import PredictiveParsing.Proofs.Renaming.Passes

/-!
# The reduction does not look at the order

Grammars that differ in their orders only lose the same useless symbols and
stay alike. Splitting and factoring name the new variables as the order has
it, so that from then on the grammars are alike up to a renaming. Each pass
extends the renaming, and the variables that were there before the first pass
keep their names.
-/

namespace PredictiveParsing

open Renaming

/-- Components that differ in the display order and in the order of the rule
table at most. -/
structure Components.SameUpToOrder (c d : Components) : Prop where
  /-- The variables are the same. -/
  vars : d.vars = c.vars
  /-- The declared terminals are the same. -/
  terminals : d.terminals = c.terminals
  /-- The start symbol is the same. -/
  start : d.start = c.start
  /-- Every variable has the same alternatives in the same order. -/
  rules : ∀ a, d.rules.get? a = c.rules.get? a

namespace Components.SameUpToOrder

variable {c d : Components}

theorem symm (h : c.SameUpToOrder d) : d.SameUpToOrder c :=
  ⟨h.vars.symm, h.terminals.symm, h.start.symm, fun a => (h.rules a).symm⟩

/-- The alternatives are the same. -/
theorem rulesOf_eq (h : c.SameUpToOrder d) : d.rulesOf = c.rulesOf :=
  funext fun a => congrArg (Option.getD · []) (h.rules a)

/-- Closed components stay closed in another order. -/
theorem closed (h : c.SameUpToOrder d) (hc : c.Closed) : d.Closed where
  vars_nonterminal := h.vars ▸ hc.vars_nonterminal
  terminals_terminal := h.terminals ▸ hc.terminals_terminal
  key_declared := fun a bodies hget => h.vars ▸ hc.key_declared a bodies (h.rules a ▸ hget)
  body_declared := by
    rw [h.rulesOf_eq, h.vars]
    exact hc.body_declared

/-- Nothing is to be renamed. -/
theorem carries (h : c.SameUpToOrder d) : Renaming.id.Carries c d where
  start := h.start.trans (id_apply c.start).symm
  vars := fun a => by rw [id_apply, h.vars]
  rules := fun a => by
    rw [id_apply, h.rulesOf_eq]
    exact ((List.map_congr_left fun l _ => body_id l).trans (List.map_id _)).symm

end Components.SameUpToOrder

namespace Grammar

variable {g h : Grammar}

/-- The productive variables do not depend on the order. -/
theorem Closed.productive_eq (hg : g.Closed) (hs : g.SameUpToOrder h.toComponents) :
    h.productive = g.productive := by
  have hh : h.Closed := (hs.closed hg.components).grammar
  have hrules : h.rulesOf = g.rulesOf := hs.rulesOf_eq
  refine SymbolSet.ext fun a => ?_
  rw [hh.mem_productive_iff, hg.mem_productive_iff, hs.vars, hrules]
  simp only [Declares, hs.terminals]

/-- The accessible symbols do not depend on the order. -/
theorem accessible_eq (hs : g.SameUpToOrder h.toComponents) : h.accessible = g.accessible := by
  have hrules : h.rulesOf = g.rulesOf := hs.rulesOf_eq
  refine SymbolSet.ext fun a => ?_
  rw [mem_accessible_iff, mem_accessible_iff, hrules, hs.start]

/-- Restricted rule tables have the same content. -/
theorem get?_restrictRules_eq (hs : g.SameUpToOrder h.toComponents) (keys symbols : SymbolSet)
    (a : Symbol) :
    (h.restrictRules keys symbols).get? a = (g.restrictRules keys symbols).get? a := by
  rw [restrictRules, restrictRules, SymbolTable.get?_select, SymbolTable.get?_select, hs.rules]

/-- Useless symbols are removed from both grammars or from none, and the
outcomes are alike. -/
theorem Closed.removeUseless_sameUpToOrder (hg : g.Closed)
    (hs : g.SameUpToOrder h.toComponents) {r : Grammar} (hr : g.removeUseless = .ok r) :
    ∃ s, h.removeUseless = .ok s ∧ r.SameUpToOrder s.toComponents := by
  have hh : h.Closed := (hs.closed hg.components).grammar
  have hstart : g.start ∈ g.productive := by
    rw [hg.start_mem_productive_iff]
    by_contra hn
    obtain ⟨fault, hf⟩ := hg.removeUseless_eq_error_iff.mpr hn
    rw [hr] at hf
    cases hf
  have hproductive := hg.productive_eq hs
  have hstart' : h.start ∈ h.productive := by
    rw [hproductive, hs.start]
    exact hstart
  obtain ⟨mid, r', hmid, hr', -, -, hok⟩ := hg.exists_removeUseless hstart
  obtain ⟨mid', s, hmid', hs', -, -, hok'⟩ := hh.exists_removeUseless hstart'
  have hfirst : mid.SameUpToOrder mid'.toComponents := by
    rw [hmid, hmid', productivePart, productivePart]
    have hproducing : h.producing g.productive = g.producing g.productive := by
      rw [producing, producing, hs.terminals]
    refine ⟨hproductive, hs.terminals, hs.start, fun a => ?_⟩
    dsimp only
    rw [hproductive, hproducing, get?_restrictRules_eq hs]
  rw [hr] at hok
  refine ⟨s, hok', ?_⟩
  have haccessible := accessible_eq hfirst
  rw [Except.ok.inj hok, hr', hs', accessiblePart, accessiblePart]
  refine ⟨?_, ?_, hfirst.start, fun a => ?_⟩
  · dsimp only
    rw [haccessible, hfirst.vars]
  · dsimp only
    rw [haccessible, hfirst.terminals]
  · dsimp only
    rw [haccessible, get?_restrictRules_eq hfirst]

section Carried

variable {σ : Renaming}

/-- Whether an alternative is recursive does not depend on names. -/
theorem recursesOn_body (σ : Renaming) (a : Symbol) (l : Body) :
    recursesOn (σ a) (σ.body l) = recursesOn a l := by
  match l with
  | [] => rfl
  | [x] => rfl
  | x :: y :: rest =>
    rw [Bool.eq_iff_iff]
    exact (beq_iff_eq.trans σ.apply_inj).trans beq_iff_eq.symm

/-- The alternatives of a renamed symbol are the renamed ones. -/
theorem mem_rulesOf_carries (hσ : σ.Carries g.toComponents h.toComponents) {a : Symbol}
    {l : Body} : σ.body l ∈ h.rulesOf (σ a) ↔ l ∈ g.rulesOf a := by
  have hrules : h.rulesOf (σ a) = (g.rulesOf a).map σ.body := hσ.rules a
  rw [hrules, List.mem_map_of_injective σ.body_injective]

/-- The recursive variables of the one grammar become those of the other. -/
theorem mem_leftRecursive_carries (hσ : σ.Carries g.toComponents h.toComponents) {a : Symbol} :
    σ a ∈ h.leftRecursive ↔ a ∈ g.leftRecursive := by
  have hrules : h.rulesOf (σ a) = (g.rulesOf a).map σ.body := hσ.rules a
  rw [mem_leftRecursive, mem_leftRecursive, hσ.vars, hrules]
  refine and_congr_right fun _ => ⟨fun ⟨l, hl, hr⟩ => ?_, fun ⟨l, hl, hr⟩ => ?_⟩
  · obtain ⟨old, hold, rfl⟩ := List.mem_map.mp hl
    rw [recursesOn_body] at hr
    exact ⟨old, hold, hr⟩
  · refine ⟨σ.body l, List.mem_map_of_mem hl, ?_⟩
    rw [recursesOn_body]
    exact hr

/-- A removal that is not refused finds an alternative without recursion for
every recursive variable. -/
theorem Closed.base_of_removeLeftRecursion (hg : g.Closed) {r : Grammar}
    (hr : g.removeLeftRecursion = .ok r) :
    ∀ a ∈ g.leftRecursive, ∃ body ∈ g.rulesOf a, body.head? ≠ some a := by
  by_contra hn
  push Not at hn
  obtain ⟨a, -, -, hget⟩ := hg.barren_splitAll hn
  rw [← hg.removeLeftRecursion_eq_ok_iff.mp hr] at hget
  exact r.valid.bodies_ne_nil a [] hget rfl

/-- Left recursion is removed from both grammars or from none, and the
renaming is extended to the outcomes. -/
theorem Closed.removeLeftRecursion_carries (hg : g.Closed) (hh : h.Closed)
    (hσ : σ.Carries g.toComponents h.toComponents) {r : Grammar}
    (hr : g.removeLeftRecursion = .ok r) :
    ∃ (s : Grammar) (τ : Renaming), h.removeLeftRecursion = .ok s ∧ (∀ a ∈ g.vars, τ a = σ a) ∧
      τ.Carries r.toComponents s.toComponents := by
  have hbase : ∀ b ∈ h.leftRecursive, ∃ body ∈ h.rulesOf b, body.head? ≠ some b := by
    intro b hb
    obtain ⟨a, rfl⟩ := σ.exists_apply_eq b
    obtain ⟨l, hl, hhead⟩ :=
      hg.base_of_removeLeftRecursion hr a ((mem_leftRecursive_carries hσ).mp hb)
    exact ⟨σ.body l, (mem_rulesOf_carries hσ).mpr hl, fun e => hhead ((head?_body σ a l).mp e)⟩
  obtain ⟨s, hs⟩ := hh.exists_removeLeftRecursion hbase
  have split : ∀ f : Grammar, ∃ new,
      Refitted splitRemake 2 f.toComponents new f.leftRecursive f.splitAll := by
    intro f
    have hfits := @exists_refitted splitRemake 2 Symbol Components.splitRecursion (·)
      (fun _ _ => True) (fun c a ha _ => refitted_splitRecursion c a ha) f.leftRecursive
      f.toComponents
    rw [List.map_id'] at hfits
    exact hfits f.nodup_leftRecursive fun a ha => ⟨mem_vars_of_mem_leftRecursive a ha, trivial⟩
  obtain ⟨new, hnew⟩ := split g
  obtain ⟨new', hnew'⟩ := split h
  obtain ⟨τ, hτ, hcarries⟩ := hnew.exists_carries hnew' splitRemake_nameless hσ hg.components
    hg.splitAll.closed hh.splitAll.closed g.valid.start_mem mem_vars_of_mem_leftRecursive
    g.nodup_leftRecursive h.nodup_leftRecursive fun a => mem_leftRecursive_carries hσ
  refine ⟨s, τ, hs, hτ, ?_⟩
  rw [hg.removeLeftRecursion_eq_ok_iff.mp hr, hh.removeLeftRecursion_eq_ok_iff.mp hs]
  exact hcarries

/-- The targets of a pass of factoring with their shared prefixes. -/
theorem mem_factorable {a : Symbol} {factor : Body} :
    (a, factor) ∈ g.factorable ↔ a ∈ g.vars ∧ sharedPrefix? (g.rulesOf a) = some factor := by
  rw [factorable, List.mem_filterMap]
  constructor
  · intro ⟨b, hb, he⟩
    obtain ⟨found, hfound, he⟩ := Option.map_eq_some_iff.mp he
    obtain ⟨rfl, rfl⟩ := Prod.mk.inj he
    exact ⟨mem_displayOrder.mp hb, hfound⟩
  · intro ⟨ha, hfactor⟩
    exact ⟨a, mem_displayOrder.mpr ha, by rw [hfactor, Option.map_some]⟩

/-- The variables that are factored in a pass. -/
theorem mem_factorable_fst {a : Symbol} :
    a ∈ g.factorable.map Prod.fst ↔
      a ∈ g.vars ∧ (sharedPrefix? (g.rulesOf a)).isSome = true := by
  rw [List.mem_map, Option.isSome_iff_exists]
  constructor
  · intro ⟨⟨b, factor⟩, hmem, he⟩
    obtain ⟨ha, hfactor⟩ := mem_factorable.mp hmem
    exact he ▸ ⟨ha, factor, hfactor⟩
  · intro ⟨ha, factor, hfactor⟩
    exact ⟨(a, factor), mem_factorable.mpr ⟨ha, hfactor⟩, rfl⟩

/-- The variables that are factored in the one grammar become those of the
other. -/
theorem mem_factorable_carries (hσ : σ.Carries g.toComponents h.toComponents) (a : Symbol) :
    σ a ∈ h.factorable.map Prod.fst ↔ a ∈ g.factorable.map Prod.fst := by
  have hrules : h.rulesOf (σ a) = (g.rulesOf a).map σ.body := hσ.rules a
  rw [mem_factorable_fst, mem_factorable_fst, hσ.vars, hrules, sharedPrefix?_map, Option.isSome_map]

/-- A pass of factoring extends the renaming to the outcomes. -/
theorem Closed.factorPass_carries (hg : g.Closed) (hh : h.Closed)
    (hσ : σ.Carries g.toComponents h.toComponents) :
    ∃ τ : Renaming, (∀ a ∈ g.vars, τ a = σ a) ∧
      τ.Carries (g.factorable.foldl Components.factorOut g.toComponents)
        (h.factorable.foldl Components.factorOut h.toComponents) := by
  have factored : ∀ f : Grammar, f.Closed → ∃ new, Refitted factorRemake 1 f.toComponents new
      (f.factorable.map Prod.fst) (f.factorable.foldl Components.factorOut f.toComponents) := by
    intro f hf
    refine @exists_refitted factorRemake 1 _ Components.factorOut Prod.fst
      (fun bodies target => sharedPrefix? bodies = some target.2)
      (fun c target ha hfactor => refitted_factorOut c target ha hfactor) f.factorable
      f.toComponents f.nodup_factorable fun target ht => ?_
    exact mem_factorable.mp ht
  have closed : ∀ f : Grammar, f.Closed →
      (f.factorable.foldl Components.factorOut f.toComponents).Closed := fun f hf =>
    ((Components.FactoredFrom.refl hf.components f.valid).steps hf.factorSteps).closed
  obtain ⟨new, hnew⟩ := factored g hg
  obtain ⟨new', hnew'⟩ := factored h hh
  exact hnew.exists_carries hnew' factorRemake_nameless hσ hg.components (closed g hg)
    (closed h hh) g.valid.start_mem (fun a ha => (mem_factorable_fst.mp ha).1)
    g.nodup_factorable h.nodup_factorable (mem_factorable_carries hσ)

/-- A variable has an entry in the rule table if it has alternatives. -/
theorem get?_eq_ite (g : Grammar) (a : Symbol) :
    g.rules.get? a = if g.rulesOf a = [] then none else some (g.rulesOf a) := by
  cases hget : g.rules.get? a with
  | none => rw [rulesOf, hget, Option.getD_none, if_pos rfl]
  | some bodies =>
    rw [rulesOf, hget, Option.getD_some, if_neg (g.valid.bodies_ne_nil a bodies hget)]

/-- The entries of the rule tables are the same up to their order. -/
theorem entries_perm (hσ : σ.Carries g.toComponents h.toComponents) :
    h.rules.entries.Perm (g.rules.entries.map fun entry => (σ entry.1, entry.2.map σ.body)) := by
  have hget : ∀ a, h.rules.get? (σ a) = (g.rules.get? a).map (List.map σ.body) := by
    intro a
    have hrules : h.rulesOf (σ a) = (g.rulesOf a).map σ.body := hσ.rules a
    rw [get?_eq_ite, get?_eq_ite, hrules]
    by_cases hnil : g.rulesOf a = []
    · rw [if_pos hnil, hnil, List.map_nil, if_pos rfl, Option.map_none]
    · rw [if_neg hnil, if_neg fun e => hnil (List.map_eq_nil_iff.mp e), Option.map_some]
  have hkeys : ((g.rules.entries.map fun entry => (σ entry.1, entry.2.map σ.body)).map
      Prod.fst).Nodup := by
    have hnodup := g.rules.nodup_keys.map σ.injective
    rw [List.map_map] at hnodup ⊢
    exact hnodup
  refine (List.perm_ext_iff_of_nodup h.rules.nodup_keys.of_map hkeys.of_map).mpr ?_
  intro ⟨key, bodies⟩
  obtain ⟨a, rfl⟩ := σ.exists_apply_eq key
  rw [SymbolTable.mem_entries_iff, hget, Option.map_eq_some_iff, List.mem_map]
  constructor
  · intro ⟨old, hold, he⟩
    exact ⟨(a, old), SymbolTable.mem_entries_iff.mpr hold, by rw [he]⟩
  · intro ⟨⟨b, old⟩, hold, he⟩
    obtain ⟨hb, hbodies⟩ := Prod.mk.inj he
    obtain rfl := σ.injective hb
    exact ⟨old, SymbolTable.mem_entries_iff.mp hold, hbodies⟩

/-- The bodies have as many symbols. -/
theorem bodySymbols_eq (hσ : σ.Carries g.toComponents h.toComponents) :
    h.bodySymbols = g.bodySymbols := by
  have hflat : ∀ entry : Symbol × List Body,
      (entry.2.map σ.body).flatten = entry.2.flatten.map σ := fun entry => List.map_flatten.symm
  rw [bodySymbols, ((entries_perm hσ).flatMap_right _).length_eq, List.flatMap_map]
  simp only [hflat]
  rw [← List.map_flatMap, List.length_map, bodySymbols]

/-- The passes of factoring extend the renaming to the outcomes. -/
theorem Closed.factorPasses_carries {limit : Nat} (hg : g.Closed) (hh : h.Closed)
    (hσ : σ.Carries g.toComponents h.toComponents) {r : Grammar}
    (hr : g.factorPasses limit = .ok r) :
    ∃ (s : Grammar) (τ : Renaming), h.factorPasses limit = .ok s ∧
      (∀ a ∈ g.vars, τ a = σ a) ∧ τ.Carries r.toComponents s.toComponents := by
  induction limit generalizing g h σ with
  | zero =>
    rw [← Except.ok.inj hr]
    exact ⟨h, σ, rfl, fun _ _ => rfl, hσ⟩
  | succ limit ih =>
    have hnil : h.factorable = [] ↔ g.factorable = [] := by
      rw [← List.map_eq_nil_iff (f := Prod.fst), ← List.map_eq_nil_iff (f := Prod.fst),
        List.eq_nil_iff_forall_not_mem, List.eq_nil_iff_forall_not_mem]
      refine ⟨fun hn a ha => hn (σ a) ((mem_factorable_carries hσ a).mpr ha), fun hn b hb => ?_⟩
      obtain ⟨a, rfl⟩ := σ.exists_apply_eq b
      exact hn a ((mem_factorable_carries hσ a).mp hb)
    by_cases hf : g.factorable = []
    · rw [factorPasses_of_factorable_eq_nil hf] at hr
      rw [← Except.ok.inj hr]
      exact ⟨h, σ, factorPasses_of_factorable_eq_nil (hnil.mpr hf) _, fun _ _ => rfl, hσ⟩
    · have hpass : ∀ f : Grammar, f.Closed → ∃ next : Grammar,
          (f.factorable.foldl Components.factorOut f.toComponents).check = .ok next ∧
          next.toComponents = f.factorable.foldl Components.factorOut f.toComponents ∧
          next.Closed ∧ ∀ a ∈ f.vars, a ∈ next.vars := by
        intro f hf
        have hfrom := (Components.FactoredFrom.refl hf.components f.valid).steps hf.factorSteps
        obtain ⟨next, hcheck, e⟩ := hfrom.valid.check_eq_ok
        rw [← e] at hfrom
        exact ⟨next, hcheck, e, hfrom.closed.grammar, hfrom.kept⟩
      obtain ⟨next, hcheck, e, hnext, hkept⟩ := hpass g hg
      obtain ⟨next', hcheck', e', hnext', -⟩ := hpass h hh
      obtain ⟨τ, hτ, hcarries⟩ := hg.factorPass_carries hh hσ
      rw [← e, ← e'] at hcarries
      rw [factorPasses_succ hf, hcheck] at hr
      obtain ⟨s, ρ, hs, hρ, hrest⟩ := ih hnext hnext' hcarries hr
      refine ⟨s, ρ, ?_, fun a ha => (hρ a (hkept a ha)).trans (hτ a ha), hrest⟩
      rw [factorPasses_succ fun hn => hf (hnil.mp hn), hcheck']
      exact hs

/-- Factoring extends the renaming to the outcomes. -/
theorem Closed.leftFactor_carries (hg : g.Closed) (hh : h.Closed)
    (hσ : σ.Carries g.toComponents h.toComponents) {r : Grammar} (hr : g.leftFactor = .ok r) :
    ∃ (s : Grammar) (τ : Renaming), h.leftFactor = .ok s ∧ (∀ a ∈ g.vars, τ a = σ a) ∧
      τ.Carries r.toComponents s.toComponents := by
  rw [Grammar.leftFactor, bodySymbols_eq hσ]
  exact hg.factorPasses_carries hh hσ hr

/-- A stage that is passed with some transformation, switched on or off. -/
theorem stage_carries {on : Bool} {transform : Grammar → Except GrammarFault Grammar}
    (hσ : σ.Carries g.toComponents h.toComponents)
    (htransform : ∀ r, transform g = .ok r → ∃ (s : Grammar) (τ : Renaming),
      transform h = .ok s ∧ (∀ a ∈ g.vars, τ a = σ a) ∧ τ.Carries r.toComponents s.toComponents)
    {r : Grammar} (hr : stage on transform g = .ok r) :
    ∃ (s : Grammar) (τ : Renaming), stage on transform h = .ok s ∧
      (∀ a ∈ g.vars, τ a = σ a) ∧ τ.Carries r.toComponents s.toComponents := by
  rcases stage_eq_ok hr with ⟨rfl, hr⟩ | ⟨rfl, rfl⟩
  · exact htransform r hr
  · exact ⟨h, σ, rfl, fun _ _ => rfl, hσ⟩

end Carried

/-- The reduced grammar comes out of the three stages. -/
theorem reduce_of_stages {settings : Settings} {g useful split r : Grammar}
    (hu : stage settings.removeUseless removeUseless g = .ok useful)
    (hs : stage settings.removeLeftRecursion removeLeftRecursion useful = .ok split)
    (hf : stage settings.leftFactor leftFactor split = .ok r) : g.reduce settings = .ok r := by
  rw [reduce, hu]
  refine Eq.trans ?_ hf
  exact congrArg (· >>= fun split => stage settings.leftFactor leftFactor split) hs

/-- Grammars that differ in their orders are both reduced or both refused. A
renaming that leaves all variables but the generated ones carries the one
reduced grammar to the other. -/
theorem Closed.reduce_carries {settings : Settings} {g h r : Grammar} (hg : g.Closed)
    (hs : g.SameUpToOrder h.toComponents) (hr : g.reduce settings = .ok r) :
    ∃ (useful s : Grammar) (σ : Renaming),
      stage settings.removeUseless Grammar.removeUseless g = .ok useful ∧
      h.reduce settings = .ok s ∧ (∀ a ∈ useful.vars, σ a = a) ∧
      σ.Carries r.toComponents s.toComponents := by
  have hh : h.Closed := (hs.closed hg.components).grammar
  obtain ⟨useful, split, huseful, hsplit, hfactor⟩ := reduce_eq_ok hr
  have first : useful.Closed ∧ ∃ useful' : Grammar,
      stage settings.removeUseless Grammar.removeUseless h = .ok useful' ∧ useful'.Closed ∧
        useful.SameUpToOrder useful'.toComponents := by
    rcases stage_eq_ok huseful with ⟨hon, hok⟩ | ⟨hoff, e⟩
    · obtain ⟨useful', hok', hsame⟩ := hg.removeUseless_sameUpToOrder hs hok
      rw [hon]
      exact ⟨(hg.removeUseless hok).1, useful', hok', (hh.removeUseless hok').1, hsame⟩
    · rw [hoff, e]
      exact ⟨hg, h, rfl, hh, hs⟩
  obtain ⟨hclosed, useful', huseful', hclosed', hsame⟩ := first
  obtain ⟨split', σ, hsplit', hσ, hcarries⟩ := stage_carries hsame.carries
    (fun _ hr => hclosed.removeLeftRecursion_carries hclosed' hsame.carries hr) hsplit
  have second : ∀ {f out : Grammar}, f.Closed →
      stage settings.removeLeftRecursion Grammar.removeLeftRecursion f = .ok out →
      out.Closed ∧ ∀ a ∈ f.vars, a ∈ out.vars := by
    intro f out hf hout
    rcases stage_eq_ok hout with ⟨-, hok⟩ | ⟨-, e⟩
    · refine ⟨(hf.removeLeftRecursion hok).1, fun a ha => ?_⟩
      rw [hf.removeLeftRecursion_eq_ok_iff.mp hok]
      exact hf.splitAll.kept a ha
    · rw [e]
      exact ⟨hf, fun _ ha => ha⟩
  obtain ⟨hsplitClosed, hkept⟩ := second hclosed hsplit
  have hsplitClosed' := (second hclosed' hsplit').1
  obtain ⟨s, τ, hs', hτ, hlast⟩ := stage_carries hcarries
    (fun _ hr => hsplitClosed.leftFactor_carries hsplitClosed' hcarries hr) hfactor
  refine ⟨useful, s, τ, huseful, reduce_of_stages huseful' hsplit' hs', fun a ha => ?_, hlast⟩
  rw [hτ a (hkept a ha), hσ a ha, id_apply]

end Grammar

end PredictiveParsing
