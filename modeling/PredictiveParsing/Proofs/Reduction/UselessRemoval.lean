import PredictiveParsing.Proofs.Reduction.RecursionRemoval
import PredictiveParsing.Proofs.Reduction.UsefulSymbols

/-!
# The removal of useless symbols

The removal is refused exactly if there is no sentence. Otherwise the useful
symbols and the rules over them are left, and the sentences stay. What is
left is trim: every variable generates a string, terminals of bodies are
declared, and everything is reached from the start symbol. A trim grammar is
left as it is, so that a second removal changes nothing.
-/

namespace PredictiveParsing

namespace Components

/-- The rules in the order of the table, each alternative with its owner. -/
def productions (c : Components) : List (Symbol × Body) :=
  c.rules.entries.flatMap fun entry => entry.2.map fun body => (entry.1, body)

/-- The listed rules are the alternatives with their owners. -/
theorem mem_productions {c : Components} {a : Symbol} {body : Body} :
    (a, body) ∈ c.productions ↔ body ∈ c.rulesOf a := by
  rw [mem_rulesOf_iff_mem_entries, productions, List.mem_flatMap]
  constructor
  · intro ⟨entry, hentry, hmem⟩
    obtain ⟨other, hother, he⟩ := List.mem_map.mp hmem
    obtain ⟨ha, hbody⟩ := Prod.mk.inj he
    exact ⟨entry.2, ha ▸ hentry, hbody ▸ hother⟩
  · intro ⟨bodies, hentry, hmem⟩
    exact ⟨(a, bodies), hentry, List.mem_map_of_mem hmem⟩

/-- Components without anything useless. -/
structure Trim (c : Components) : Prop where
  /-- Every variable generates a string. -/
  productive : ∀ a ∈ c.vars, Productive c.rulesOf a
  /-- The terminals of bodies are declared. -/
  declared : ∀ a, ∀ body ∈ c.rulesOf a, ∀ x ∈ body, x.isTerminal = true → x ∈ c.terminals
  /-- The variables are reached from the start symbol. -/
  vars_reached : ∀ a ∈ c.vars, Reaches c.rulesOf c.start a
  /-- The declared terminals are reached from the start symbol. -/
  terminals_reached : ∀ t ∈ c.terminals, Reaches c.rulesOf c.start t

end Components

namespace Grammar

/-- The rules that are left of those of given keys are the ones made of given
symbols, in the same order. -/
theorem productions_of_restrictRules {g : Grammar} {c : Components} {keys symbols : SymbolSet}
    (h : c.rules = g.restrictRules keys symbols) :
    c.productions =
      g.productions.filter fun rule => decide (rule.1 ∈ keys) && within symbols rule.2 := by
  unfold Components.productions
  rw [h]
  unfold restrictRules SymbolTable.select SymbolTable.selectEntries
  dsimp only
  induction g.rules.entries with
  | nil => rfl
  | cons entry rest ih =>
    rw [List.filterMap_cons, List.flatMap_cons, List.filter_append, ← ih, List.filter_map]
    by_cases hkey : entry.1 ∈ keys
    · have hsame : (fun rule : Symbol × Body => decide (rule.1 ∈ keys) && within symbols rule.2) ∘
          (fun body => (entry.1, body)) = within symbols :=
        funext fun body => by simp [hkey]
      rw [if_pos hkey, hsame, keptBodies]
      cases hkept : entry.2.filter (within symbols) with
      | nil => rfl
      | cons body others => rfl
    · have hnone : (fun rule : Symbol × Body => decide (rule.1 ∈ keys) && within symbols rule.2) ∘
          (fun body => (entry.1, body)) = fun _ => false :=
        funext fun body => by simp [hkey]
      rw [if_neg hkey, hnone, List.filter_eq_nil_iff.mpr fun _ _ => Bool.false_ne_true]
      rfl

/-- Where all keys are given, as are the symbols of all bodies, the rule table
is left as it is. -/
theorem restrictRules_eq_self {g : Grammar} {keys symbols : SymbolSet}
    (hkeys : ∀ a ∈ g.vars, a ∈ keys)
    (hbodies : ∀ a, ∀ body ∈ g.rulesOf a, ∀ x ∈ body, x ∈ symbols) :
    g.restrictRules keys symbols = g.rules := by
  refine SymbolTable.select_eq_self fun a bodies hget => ?_
  have hall : bodies.filter (within symbols) = bodies := by
    refine List.filter_eq_self.mpr fun body hb => within_iff.mpr (hbodies a body ?_)
    exact Components.mem_rulesOf_iff.mpr ⟨bodies, hget, hb⟩
  rw [if_pos (hkeys a (g.valid.key_mem a bodies hget)), keptBodies, hall]
  cases bodies with
  | nil => exact absurd rfl (g.valid.bodies_ne_nil a [] hget)
  | cons body rest => rfl

/-- Where all variables are kept the display order is left as it is. -/
theorem restrictOrder_eq_self {g : Grammar} {kept : SymbolSet} (h : ∀ a ∈ g.vars, a ∈ kept) :
    g.restrictOrder kept = g.order := by
  unfold restrictOrder
  cases ho : g.order with
  | none => rfl
  | some order =>
    have hlists := (Components.listsVariables_iff.mp (g.valid.order_lists order ho)).2
    rw [Option.map_some, List.filter_eq_self.mpr]
    exact fun a ha => decide_eq_true (h a ((hlists a).mp ha))

/-- What is left of a grammar passes the check if the start symbol is kept. -/
theorem valid_restrict {g : Grammar} {kept keys symbols terminals : SymbolSet}
    (hstart : g.start ∈ kept) (hkept : kept ⊆ g.vars) (hkeys : ∀ a ∈ g.vars, a ∈ keys → a ∈ kept) :
    Components.Valid
      { vars := kept, terminals := terminals, rules := g.restrictRules keys symbols,
        start := g.start, order := g.restrictOrder kept } := by
  have hget : ∀ a bodies, (g.restrictRules keys symbols).get? a = some bodies →
      a ∈ keys ∧ bodies ≠ [] ∧ ∃ old, g.rules.get? a = some old := by
    intro a bodies h
    unfold restrictRules at h
    rw [SymbolTable.get?_select, Option.bind_eq_some_iff] at h
    obtain ⟨old, hold, h⟩ := h
    split at h
    · next hk =>
      refine ⟨hk, fun e => ?_, old, hold⟩
      rw [e, keptBodies] at h
      split at h
      · cases h
      · next hne => exact hne (Option.some.inj h)
    · cases h
  refine ⟨hstart, ?_, fun a bodies h => (hget a bodies h).2.1, ?_, ?_⟩
  · intro a bodies h
    obtain ⟨hk, -, old, hold⟩ := hget a bodies h
    exact hkeys a (g.valid.key_mem a old hold) hk
  · intro a body hb
    have hb' : body ∈ ((g.restrictRules keys symbols).get? a).getD [] := hb
    rw [rulesOf_restrictRules] at hb'
    split at hb'
    · exact g.valid.proper a body (List.mem_filter.mp hb').1
    · exact absurd hb' List.not_mem_nil
  · intro order ho
    obtain ⟨old, hold, he⟩ := Option.map_eq_some_iff.mp ho
    obtain ⟨hnodup, hlists⟩ := Components.listsVariables_iff.mp (g.valid.order_lists old hold)
    rw [← he]
    refine Components.listsVariables_iff.mpr ⟨hnodup.filter _, fun a => ?_⟩
    rw [List.mem_filter, decide_eq_true_eq, hlists]
    exact ⟨fun h => h.2, fun h => ⟨hkept a h, h⟩⟩

/-- The components that the first removal leaves. -/
def productivePart (g : Grammar) : Components where
  vars := g.productive
  terminals := g.terminals
  rules := g.restrictRules g.productive (g.producing g.productive)
  start := g.start
  order := g.restrictOrder g.productive

/-- The components that the second removal leaves. -/
def accessiblePart (g : Grammar) : Components where
  vars := g.vars ∩ g.accessible
  terminals := g.terminals ∩ g.accessible
  rules := g.restrictRules g.accessible g.accessible
  start := g.start
  order := g.restrictOrder (g.vars ∩ g.accessible)

/-- If the start symbol is productive the removal is made, and its outcome is
the accessible part of the productive part. -/
theorem Closed.exists_removeUseless {g : Grammar} (hg : g.Closed) (h : g.start ∈ g.productive) :
    ∃ mid r : Grammar, mid.toComponents = g.productivePart ∧
      r.toComponents = mid.accessiblePart ∧ g.removeUnproductive = .ok mid ∧
      mid.removeInaccessible = .ok r ∧ g.removeUseless = .ok r := by
  have hfirst : g.productivePart.Valid :=
    valid_restrict h (fun a ha => (hg.mem_productive_iff.mp ha).1) fun a _ ha => ha
  obtain ⟨mid, hcheck, hmid⟩ := hfirst.check_eq_ok
  have hsecond : mid.accessiblePart.Valid := by
    refine valid_restrict ?_ (fun a ha => (SymbolSet.mem_inter.mp ha).1) ?_
    · exact SymbolSet.mem_inter.mpr ⟨mid.valid.start_mem, mem_accessible_iff.mpr .self⟩
    · exact fun a ha hk => SymbolSet.mem_inter.mpr ⟨ha, hk⟩
  obtain ⟨r, hr, hrest⟩ := hsecond.check_eq_ok
  have hu : g.removeUnproductive = .ok mid := by
    unfold Grammar.removeUnproductive
    dsimp only
    rw [if_pos h]
    exact hcheck
  refine ⟨mid, r, hmid, hrest, hu, hr, ?_⟩
  rw [Grammar.removeUseless, hu]
  exact hr

/-- The removal is refused exactly if there is no sentence. -/
theorem Closed.removeUseless_eq_error_iff {g : Grammar} (hg : g.Closed) :
    (∃ fault, g.removeUseless = .error fault) ↔ ¬∃ w, g.Sentence w := by
  rw [← hg.start_mem_productive_iff]
  constructor
  · intro ⟨fault, hf⟩ h
    obtain ⟨-, r, -, -, -, -, hr⟩ := hg.exists_removeUseless h
    rw [hf] at hr
    cases hr
  · intro h
    refine ⟨.startUnproductive g.start, ?_⟩
    unfold Grammar.removeUseless Grammar.removeUnproductive
    dsimp only
    rw [if_neg h]
    rfl

/-- Where the terminals of bodies are declared, what a variable yields is made
of declared terminals. -/
theorem Closed.declares_of_yields {g : Grammar} (hg : g.Closed)
    (h : ∀ a, ∀ body ∈ g.rulesOf a, ∀ x ∈ body, x.isTerminal = true → x ∈ g.terminals)
    {a : Symbol} (ha : a ∈ g.vars) {w : List Symbol} (hw : Yields g.rulesOf [a] w) :
    g.Declares w := by
  refine hw.mem_of_terminals h fun y hy hk => ?_
  rw [List.mem_singleton.mp hy] at hk
  exact absurd ha (hg.notMem_vars_of_isTerminal hk)

/-- The sentences of a trim grammar are the strings of terminals that the
start symbol generates. -/
theorem Closed.sentence_iff_generates {g : Grammar} (hg : g.Closed) (h : g.Trim)
    {w : List Symbol} : g.Sentence w ↔ Generates g.rulesOf [g.start] w := by
  rw [hg.sentence_iff, generates_nonterminal (hg.vars_nonterminal _ g.valid.start_mem)]
  exact and_iff_left_of_imp (hg.declares_of_yields h.declared g.valid.start_mem)

/-- The productive symbols of a trim grammar are its variables. -/
theorem Closed.productive_eq_vars {g : Grammar} (hg : g.Closed) (h : g.Trim) :
    g.productive = g.vars := by
  refine SymbolSet.ext fun a => ?_
  rw [hg.mem_productive_iff]
  refine and_iff_left_of_imp fun ha => ?_
  obtain ⟨w, hw⟩ := h.productive a ha
  exact ⟨w, hw, hg.declares_of_yields h.declared ha hw⟩

/-- A trim grammar is left as it is. -/
theorem Closed.removeUseless_eq_self {g : Grammar} (hg : g.Closed) (h : g.Trim) :
    g.removeUseless = .ok g := by
  have hproductive := hg.productive_eq_vars h
  have hproducing : ∀ a, ∀ body ∈ g.rulesOf a, ∀ x ∈ body, x ∈ g.producing g.productive := by
    intro a body hb x hx
    rw [mem_producing, hproductive]
    cases x with
    | epsilon => exact .inl rfl
    | terminal t => exact .inr (.inl (h.declared a body hb _ hx rfl))
    | nonterminal n => exact .inr (.inr (hg.body_declared a body hb _ hx rfl))
  have hvars : g.vars ∩ g.accessible = g.vars := by
    refine SymbolSet.ext fun a => ?_
    rw [SymbolSet.mem_inter]
    exact and_iff_left_of_imp fun ha => mem_accessible_iff.mpr (h.vars_reached a ha)
  have hterminals : g.terminals ∩ g.accessible = g.terminals := by
    refine SymbolSet.ext fun t => ?_
    rw [SymbolSet.mem_inter]
    exact and_iff_left_of_imp fun ht => mem_accessible_iff.mpr (h.terminals_reached t ht)
  have haccessible : ∀ a ∈ g.vars, a ∈ g.accessible :=
    fun a ha => mem_accessible_iff.mpr (h.vars_reached a ha)
  have hbodies : ∀ a, ∀ body ∈ g.rulesOf a, ∀ x ∈ body, x ∈ g.accessible := fun a body hb x hx =>
    mem_accessible_of_mem_body (haccessible a (mem_vars_of_mem_rulesOf hb)) hb hx
  obtain ⟨mid, r, hmid, hr, -, -, hok⟩ :=
    hg.exists_removeUseless (hproductive ▸ g.valid.start_mem)
  rw [hproductive] at hproducing
  have hfirst : g.productivePart = g.toComponents := by
    rw [productivePart, hproductive, restrictRules_eq_self (fun a ha => ha) hproducing,
      restrictOrder_eq_self (fun a ha => ha)]
  have hsecond : g.accessiblePart = g.toComponents := by
    rw [accessiblePart, hvars, hterminals, restrictRules_eq_self haccessible hbodies,
      restrictOrder_eq_self (fun a ha => ha)]
  rw [eq_of_toComponents (hmid.trans hfirst)] at hr
  rw [hok, eq_of_toComponents (hr.trans hsecond)]

/-- What the removal leaves of a grammar, told by what is found productive and
reached. -/
structure UsefulPart (g h : Grammar) : Prop where
  /-- The start symbol is productive. -/
  start_productive : g.start ∈ g.productive
  /-- It stays. -/
  start_eq : h.start = g.start
  /-- The variables are the productive ones that are reached. -/
  mem_vars : ∀ a, a ∈ h.vars ↔
    a ∈ g.productive ∧ Reaches (g.knownProductions g.productive) g.start a
  /-- The terminals are the declared ones that are reached. -/
  mem_terminals : ∀ t, t ∈ h.terminals ↔
    t ∈ g.terminals ∧ Reaches (g.knownProductions g.productive) g.start t
  /-- The alternatives are those of reached variables over productive
  symbols. -/
  mem_rulesOf : ∀ a body, body ∈ h.rulesOf a ↔
    Reaches (g.knownProductions g.productive) g.start a ∧ body ∈ g.knownProductions g.productive a
  /-- Alternatives do not change places, nor do variables. -/
  productions : ∃ keep : Symbol × Body → Bool, h.productions = g.productions.filter keep
  /-- The display order is the old one of the variables that stay. -/
  order : h.order = g.restrictOrder h.vars

/-- The outcome of the removal is the useful part. -/
theorem Closed.usefulPart {g h : Grammar} (hg : g.Closed) (hh : g.removeUseless = .ok h) :
    UsefulPart g h := by
  have hstart : g.start ∈ g.productive := by
    by_contra hn
    rw [hg.start_mem_productive_iff, ← hg.removeUseless_eq_error_iff] at hn
    obtain ⟨fault, hf⟩ := hn
    rw [hh] at hf
    cases hf
  obtain ⟨mid, r, hfirst, hsecond, hmid, hr, hall⟩ := hg.exists_removeUseless hstart
  rw [hh] at hall
  rw [← Except.ok.inj hall] at hr hsecond
  obtain ⟨hmvars, hmterms, hmstart, hmrules⟩ := removeUnproductive_eq_ok hmid
  obtain ⟨hvars, hterms, hrstart, hrules⟩ := removeInaccessible_eq_ok hr
  have hreach : ∀ x, x ∈ mid.accessible ↔
      Reaches (g.knownProductions g.productive) g.start x := by
    intro x
    rw [mem_accessible_iff, hmrules, hmstart]
  refine ⟨hstart, hrstart.trans hmstart, ?_, ?_, ?_, ?_, ?_⟩
  · intro a
    rw [hvars, SymbolSet.mem_inter, hmvars, hreach]
  · intro t
    rw [hterms, SymbolSet.mem_inter, hmterms, hreach]
  · intro a body
    rw [hrules, hmrules, ← hreach]
    split
    · next ha => exact (and_iff_right ha).symm
    · next ha => exact iff_of_false List.not_mem_nil fun hb => ha hb.1
  · have hmidRules := productions_of_restrictRules (congrArg Components.rules hfirst)
    have hlast := productions_of_restrictRules (congrArg Components.rules hsecond)
    rw [hmidRules, List.filter_filter] at hlast
    exact ⟨_, hlast⟩
  · rw [hsecond, accessiblePart, restrictOrder, restrictOrder, hfirst, productivePart,
      restrictOrder]
    cases g.order with
    | none => rfl
    | some order =>
      rw [Option.map_some, Option.map_some, Option.map_some, List.filter_filter]
      refine congrArg some (List.filter_congr fun a _ => ?_)
      rw [Bool.eq_iff_iff, Bool.and_eq_true, decide_eq_true_eq, decide_eq_true_eq,
        SymbolSet.mem_inter]
      exact ⟨fun h => h.1, fun h => ⟨h, h.1⟩⟩

namespace UsefulPart

variable {g h : Grammar}

/-- What was reached over productive symbols is reached in what is left. -/
theorem reaches (hu : UsefulPart g h) {x : Symbol}
    (hx : Reaches (g.knownProductions g.productive) g.start x) : Reaches h.rulesOf h.start x := by
  rw [hu.start_eq]
  exact hx.imp fun a ha body hb => (hu.mem_rulesOf a body).mpr ⟨ha, hb⟩

/-- The terminals of the bodies that are left are declared. -/
theorem declared (hu : UsefulPart g h) (hg : g.Closed) :
    ∀ a, ∀ body ∈ h.rulesOf a, ∀ x ∈ body, x.isTerminal = true → x ∈ h.terminals := by
  intro a body hb x hx hk
  obtain ⟨ha, hmem⟩ := (hu.mem_rulesOf a body).mp hb
  have hp := (mem_knownProductions.mp hmem).2.2 x hx
  exact (hu.mem_terminals x).mpr ⟨hg.mem_terminals_of_producing hp hk, .body ha hmem hx⟩

/-- What is left is trim. -/
theorem trim (hu : UsefulPart g h) (hg : g.Closed) (hp : ∀ a ∈ h.vars, Productive h.rulesOf a) :
    h.Trim where
  productive := hp
  declared := hu.declared hg
  vars_reached := fun a ha => hu.reaches ((hu.mem_vars a).mp ha).2
  terminals_reached := fun t ht => hu.reaches ((hu.mem_terminals t).mp ht).2

/-- A nonterminal is left exactly if it is useful. -/
theorem mem_vars_iff (hu : UsefulPart g h) (hg : g.Closed) (a : Symbol) :
    a ∈ h.vars ↔ a ∈ g.vars ∧ g.Useful a := by
  rw [hu.mem_vars]
  constructor
  · intro ⟨hp, hr⟩
    have ha := (hg.mem_productive_iff.mp hp).1
    exact ⟨ha, (hg.useful_iff (hg.ne_epsilon_of_mem_vars ha)).mpr ⟨hu.start_productive, hr⟩⟩
  · intro ⟨ha, hx⟩
    obtain ⟨hstart, hr⟩ := (hg.useful_iff (hg.ne_epsilon_of_mem_vars ha)).mp hx
    have hp := mem_producing_of_reaches hstart hr
    exact ⟨hg.mem_productive_of_producing hp (hg.vars_nonterminal a ha), hr⟩

/-- A declared terminal is left exactly if it is useful. -/
theorem mem_terminals_iff (hu : UsefulPart g h) (hg : g.Closed) (t : Symbol) :
    t ∈ h.terminals ↔ t ∈ g.terminals ∧ g.Useful t := by
  rw [hu.mem_terminals]
  refine and_congr_right fun ht => ?_
  rw [hg.useful_iff (hg.ne_epsilon_of_mem_terminals ht)]
  exact (and_iff_right hu.start_productive).symm

/-- A rule is left exactly if its owner and the symbols of its body are
useful. -/
theorem mem_rulesOf_iff (hu : UsefulPart g h) (hg : g.Closed) (a : Symbol) (body : Body) :
    body ∈ h.rulesOf a ↔ body ∈ g.rulesOf a ∧ g.UsefulRule (a, body) := by
  have useful : ∀ {x}, x ≠ .epsilon →
      (Reaches (g.knownProductions g.productive) g.start x ↔ g.Useful x) := by
    intro x hne
    rw [hg.useful_iff hne]
    exact (and_iff_right hu.start_productive).symm
  have owner : ∀ {a body}, body ∈ g.rulesOf a → a ≠ .epsilon :=
    fun hb => hg.ne_epsilon_of_mem_vars (mem_vars_of_mem_rulesOf hb)
  rw [hu.mem_rulesOf]
  constructor
  · intro ⟨ha, hmem⟩
    have hold := (mem_knownProductions.mp hmem).2.1
    exact ⟨hold, (useful (owner hold)).mp ha, fun x hx hne => (useful hne).mp (.body ha hmem hx)⟩
  · intro ⟨hold, ha, hbody⟩
    have hproducing : ∀ x ∈ body, x ∈ g.producing g.productive := by
      intro x hx
      by_cases he : x = .epsilon
      · exact mem_producing.mpr (.inl he)
      · exact mem_producing_of_reaches hu.start_productive ((useful he).mpr (hbody x hx he))
    refine ⟨(useful (owner hold)).mpr ha, ?_⟩
    exact mem_knownProductions.mpr ⟨mem_productive_of_body hold hproducing, hold, hproducing⟩

/-- The rules that are left are those over useful symbols, in their old
order. -/
theorem productions_eq (hu : UsefulPart g h) (hg : g.Closed) [DecidablePred g.UsefulRule] :
    h.productions = g.productions.filter fun rule => decide (g.UsefulRule rule) := by
  obtain ⟨keep, hkeep⟩ := hu.productions
  rw [hkeep]
  refine List.filter_congr fun rule hrule => ?_
  have hleft : keep rule = true ↔ rule ∈ h.productions := by
    rw [hkeep, List.mem_filter]
    exact (and_iff_right hrule).symm
  rw [Bool.eq_iff_iff, hleft, decide_eq_true_eq]
  refine Components.mem_productions.trans ((hu.mem_rulesOf_iff hg _ _).trans ?_)
  exact and_iff_right (Components.mem_productions.mp hrule)

/-- The sentences stay. -/
theorem sentence_iff (hu : UsefulPart g h) (hg : g.Closed) (hh : h.Closed) (w : List Symbol) :
    h.Sentence w ↔ g.Sentence w := by
  have hold : ∀ a, ∀ body ∈ h.rulesOf a, body ∈ g.rulesOf a := fun a body hb =>
    (mem_knownProductions.mp ((hu.mem_rulesOf a body).mp hb).2).2.1
  rw [hh.sentence_iff, hg.sentence_iff, hu.start_eq]
  constructor
  · intro ⟨hy, hw⟩
    exact ⟨hy.mono hold, fun t ht => ((hu.mem_terminals t).mp (hw t ht)).1⟩
  · intro ⟨hy, hw⟩
    -- the sentence is yielded over productive symbols, which are all reached
    have hkeep : ∀ a, Reaches (g.knownProductions g.productive) g.start a →
        ∀ body ∈ g.knownProductions g.productive a, body ∈ h.rulesOf a ∧
          ∀ x ∈ body, Reaches (g.knownProductions g.productive) g.start x :=
      fun a ha body hb => ⟨(hu.mem_rulesOf a body).mpr ⟨ha, hb⟩, fun x hx => .body ha hb hx⟩
    have hleft := (yields_knownProductions hy hw).2.mono_within hkeep
      (List.forall_mem_singleton.mpr .self)
    rw [← hu.start_eq] at hleft ⊢
    exact ⟨hleft, hh.declares_of_yields (hu.declared hg) h.valid.start_mem hleft⟩

end UsefulPart

/-- The outcome of the removal is trim. -/
theorem Closed.trim_removeUseless {g h : Grammar} (hg : g.Closed) (hh : g.removeUseless = .ok h) :
    h.Trim :=
  (hg.usefulPart hh).trim hg (hg.removeUseless hh).2

open Classical in
/-- The removal of useless symbols is refused exactly if there is no sentence.
Otherwise the useful variables and terminals are left, and of the rules, in
their old order, those over useful symbols; the sentences stay; and a second
removal changes nothing. -/
theorem removeUseless_keeps_useful (g : Grammar) (hg : g.Closed) :
    ((∃ fault, g.removeUseless = .error fault) ↔ ¬∃ w, g.Sentence w) ∧
    ∀ h, g.removeUseless = .ok h →
      (∀ a, a ∈ h.vars ↔ a ∈ g.vars ∧ g.Useful a) ∧
      (∀ t, t ∈ h.terminals ↔ t ∈ g.terminals ∧ g.Useful t) ∧
      h.productions = (g.productions.filter fun rule => decide (g.UsefulRule rule)) ∧
      h.order = g.restrictOrder h.vars ∧
      (∀ w, h.Sentence w ↔ g.Sentence w) ∧
      h.removeUseless = .ok h := by
  refine ⟨hg.removeUseless_eq_error_iff, fun h hh => ?_⟩
  have hu := hg.usefulPart hh
  have hclosed := (hg.removeUseless hh).1
  refine ⟨hu.mem_vars_iff hg, hu.mem_terminals_iff hg, hu.productions_eq hg, hu.order,
    hu.sentence_iff hg hclosed, ?_⟩
  exact hclosed.removeUseless_eq_self (hg.trim_removeUseless hh)

/-- A grammar with a variable that yields nothing, one that is not reached,
and a terminal that is not declared. -/
def looseEnds : Grammar :=
  ⟨componentsOfNames ["S", "B", "C"] ["a", "b", "c"]
    [("S", [["z"], ["B"], ["a"], ["B", "a"]]), ("B", [["B", "b"]]), ("C", [["c"], ["S"]])] "S" none,
    by decide +kernel⟩

/-- One rule of it is left; and sums without an end have no sentence. -/
theorem removeUseless_looseEnds : looseEnds.Closed ∧
    (∃ h, looseEnds.removeUseless = .ok h ∧
      h.productions = [(.nonterminal "S", [.terminal "a"])] ∧
      (∀ w, h.Sentence w ↔ looseEnds.Sentence w) ∧ h.removeUseless = .ok h) ∧
    endlessSums.Closed ∧ ¬∃ w, endlessSums.Sentence w := by
  have hclosed : looseEnds.Closed := closed_of_componentsOfNames rfl
  obtain ⟨-, kept⟩ := removeUseless_keeps_useful looseEnds hclosed
  obtain ⟨refused, -⟩ := removeUseless_keeps_useful endlessSums endlessSums_closed
  have hleft : looseEnds.removeUseless.toOption.map (fun h => h.productions) =
      some [(.nonterminal "S", [.terminal "a"])] := by decide +kernel
  have hnone : endlessSums.removeUseless.toOption.isNone = true := by decide +kernel
  refine ⟨hclosed, ?_, endlessSums_closed, refused.mp ?_⟩
  · obtain ⟨h, hok, hproductions⟩ := exists_ok_of_toOption hleft
    obtain ⟨-, -, -, -, hsentences, hagain⟩ := kept h hok
    exact ⟨h, hok, hproductions, hsentences, hagain⟩
  · exact exists_error_of_isNone hnone

end Grammar

end PredictiveParsing
