import PredictiveParsing.Proofs.Derivation
import PredictiveParsing.Proofs.Grammar.Names
import PredictiveParsing.Proofs.Reduction.FreshVariables
import PredictiveParsing.Reduction.Factoring

/-!
# Factoring keeps what is yielded

Where a prefix of the alternatives of a variable is factored, an alternative
with the prefix is still available through the new variable, so that nothing
that was yielded is lost. The prefix that is factored stands in front of at
least one alternative, so that the new variable has an alternative of its
own, and generates a string if the symbols of the old alternatives do.
-/

namespace PredictiveParsing

/-- A common prefix is a prefix of the first body. -/
theorem take_commonPrefix (a b : Body) :
    a.take (commonPrefix a b).length = commonPrefix a b := by
  induction a generalizing b with
  | nil => simp [commonPrefix]
  | cons x rest ih =>
    cases b with
    | nil => rfl
    | cons y others =>
      rw [commonPrefix]
      split
      · rw [List.length_cons, List.take_succ_cons, ih]
      · rfl

/-- The first bodies of compared pairs are among the bodies. -/
theorem mem_of_mem_comparedPairs {pair : Body × Body} {seen bodies : List Body}
    (h : pair ∈ comparedPairs seen bodies) : pair.1 ∈ bodies := by
  induction bodies generalizing seen with
  | nil => exact absurd h List.not_mem_nil
  | cons body rest ih =>
    rw [comparedPairs, List.mem_append] at h
    rcases h with h | h
    · obtain ⟨earlier, -, he⟩ := List.mem_map.mp h
      exact List.mem_cons.mpr (.inl (congrArg Prod.fst he).symm)
    · exact List.mem_cons_of_mem _ (ih h)

/-- A shared prefix is worth factoring and stands in front of a body. -/
theorem sharedPrefix?_eq_some {bodies : List Body} {factor : Body}
    (h : sharedPrefix? bodies = some factor) :
    isFactor factor = true ∧ ∃ body ∈ bodies, body.take factor.length = factor := by
  obtain ⟨hmem, hf⟩ := List.mem_filter.mp (List.mem_of_getLast? h)
  obtain ⟨pair, hpair, he⟩ := List.mem_map.mp hmem
  refine ⟨hf, pair.1, mem_of_mem_comparedPairs hpair, ?_⟩
  rw [← he]
  exact take_commonPrefix pair.1 pair.2

theorem mem_otherBodies {factor body : Body} {bodies : List Body} :
    body ∈ otherBodies factor bodies ↔ body ∈ bodies ∧ body.take factor.length ≠ factor := by
  unfold otherBodies
  rw [List.mem_filter, bne_iff_ne]

/-- What is left of a body after a prefix. -/
def suffixBody (factor body : Body) : Body :=
  match body.drop factor.length with
  | [] => epsilonBody
  | suffix => suffix

theorem mem_suffixBodies {factor body : Body} {bodies : List Body} :
    body ∈ suffixBodies factor bodies ↔
      ∃ whole ∈ bodies, whole.take factor.length = factor ∧ body = suffixBody factor whole := by
  unfold suffixBodies
  rw [List.mem_map]
  constructor
  · intro ⟨whole, hw, he⟩
    obtain ⟨hmem, hf⟩ := List.mem_filter.mp hw
    exact ⟨whole, hmem, beq_iff_eq.mp hf, he.symm⟩
  · intro ⟨whole, hmem, hf, he⟩
    exact ⟨whole, List.mem_filter.mpr ⟨hmem, beq_iff_eq.mpr hf⟩, he.symm⟩

/-- What is left of a body yields what the rest of the body does. -/
theorem yields_suffixBody {P : Productions} {factor body : Body} {w : List Symbol} :
    Yields P (suffixBody factor body) w ↔ Yields P (body.drop factor.length) w := by
  unfold suffixBody
  split
  · next h =>
    rw [h, yields_epsilonBody]
    constructor
    · intro e
      rw [e]
      exact .nil
    · intro hw
      cases hw
      rfl
  · exact Iff.rfl

/-- The symbols of what is left of a body are in the body, or it is the empty
string. -/
theorem mem_of_mem_suffixBody {factor body : Body} {x : Symbol} (h : x ∈ suffixBody factor body) :
    x ∈ body ∨ x = .epsilon := by
  unfold suffixBody at h
  split at h
  · exact .inr (List.mem_singleton.mp h)
  · exact .inl (List.mem_of_mem_drop h)

/-- Productions where a prefix is factored and a new variable takes the
rest. -/
structure Factored (P Q : Productions) (n new : String) (factor : Body) : Prop where
  /-- The variable keeps its other alternatives and goes on through the new
  one after the prefix. -/
  whole : Q (.nonterminal n) =
    otherBodies factor (P (.nonterminal n)) ++ [factor ++ [.nonterminal new]]
  /-- The new one takes the rests. -/
  rest : Q (.nonterminal new) = suffixBodies factor (P (.nonterminal n))
  /-- Other nonterminals are left as they are. -/
  other : ∀ m, m ≠ n → m ≠ new → Q (.nonterminal m) = P (.nonterminal m)
  /-- The new one had no alternatives. -/
  new_empty : P (.nonterminal new) = []

/-- Factoring loses nothing. -/
theorem Factored.yields {P Q : Productions} {n new : String} {factor : Body}
    (h : Factored P Q n new factor) {form w : List Symbol} (hw : Yields P form w) :
    Yields Q form w := by
  refine spells_yields.mp (hw.spells (.epsilon .nil) (fun t => .terminal .nil) ?_)
  intro m body hb x hx
  have hy : Yields Q body x := spells_yields.mp hx
  by_cases hnew : m = new
  · rw [hnew, h.new_empty] at hb
    exact absurd hb List.not_mem_nil
  by_cases hn : m = n
  · subst hn
    by_cases hf : body.take factor.length = factor
    · have hsplit : body = factor ++ body.drop factor.length := by
        have htd := List.take_append_drop factor.length body
        rw [hf] at htd
        exact htd.symm
      rw [hsplit] at hy
      obtain ⟨u, v, huv, hu, hv⟩ := hy.split
      have hrest : Yields Q [.nonterminal new] v := by
        refine yields_nonterminal.mpr ⟨suffixBody factor body, ?_, yields_suffixBody.mpr hv⟩
        rw [h.rest]
        exact mem_suffixBodies.mpr ⟨body, hb, hf, rfl⟩
      rw [huv]
      refine yields_nonterminal.mpr ⟨_, ?_, hu.append hrest⟩
      rw [h.whole, List.mem_append]
      exact .inr List.mem_cons_self
    · refine yields_nonterminal.mpr ⟨body, ?_, hy⟩
      rw [h.whole, List.mem_append]
      exact .inl (mem_otherBodies.mpr ⟨hb, hf⟩)
  · refine yields_nonterminal.mpr ⟨body, ?_, hy⟩
    rwa [h.other m hn hnew]

namespace Components

/-- The name of the variable that takes the rests. -/
def factorName (c : Components) (a : Symbol) : String := freshName a.name c.usedNames

theorem factorName_notMem (c : Components) (a : Symbol) :
    .nonterminal (c.factorName a) ∉ c.vars :=
  notMem_vars_of_name (freshName_notMem _ _)

/-- The alternatives after a prefix is factored. -/
theorem rulesOf_factorOut (c : Components) (a b : Symbol) (factor : Body) :
    (c.factorOut (a, factor)).rulesOf b =
      if .nonterminal (c.factorName a) = b then suffixBodies factor (c.rulesOf a)
      else if a = b then
        otherBodies factor (c.rulesOf a) ++ [factor ++ [.nonterminal (c.factorName a)]]
      else c.rulesOf b := by
  unfold factorOut
  dsimp only
  rw [rulesOf_addVariable, rulesOf_setRules]
  rfl

/-- The variables after a prefix is factored. -/
theorem mem_vars_factorOut {c : Components} {a b : Symbol} {factor : Body} :
    b ∈ (c.factorOut (a, factor)).vars ↔ b = .nonterminal (c.factorName a) ∨ b ∈ c.vars := by
  unfold factorOut
  dsimp only
  rw [mem_vars_addVariable, vars_setRules]
  rfl

/-- The rule table after a prefix is factored. -/
theorem get?_factorOut (c : Components) (a b : Symbol) (factor : Body) :
    (c.factorOut (a, factor)).rules.get? b =
      if .nonterminal (c.factorName a) = b then some (suffixBodies factor (c.rulesOf a))
      else if a = b then
        some (otherBodies factor (c.rulesOf a) ++ [factor ++ [.nonterminal (c.factorName a)]])
      else c.rules.get? b := by
  unfold factorOut addVariable setRules
  dsimp only
  rw [SymbolTable.get?_set, SymbolTable.get?_set]
  rfl

/-- Factoring a prefix of closed components factors their productions. -/
theorem Closed.factored {c : Components} (h : c.Closed) {n : String} (hn : .nonterminal n ∈ c.vars)
    (factor : Body) : Factored c.rulesOf (c.factorOut (.nonterminal n, factor)).rulesOf n
      (c.factorName (.nonterminal n)) factor := by
  have hnew := c.factorName_notMem (.nonterminal n)
  have hne : c.factorName (.nonterminal n) ≠ n := fun e => hnew (e.symm ▸ hn)
  refine ⟨?_, ?_, ?_, h.rulesOf_eq_nil hnew⟩
  · rw [rulesOf_factorOut, if_neg fun e => hne (Symbol.nonterminal.inj e), if_pos rfl]
  · rw [rulesOf_factorOut, if_pos rfl]
  · intro m hmn hmnew
    rw [rulesOf_factorOut, if_neg fun e => hmnew (Symbol.nonterminal.inj e).symm,
      if_neg fun e => hmn (Symbol.nonterminal.inj e).symm]

/-- A symbol of a body after a prefix of an alternative is factored is new, the
empty string or a symbol of a body before. -/
theorem mem_body_factorOut {c : Components} {a b x : Symbol} {factor body : Body}
    (hfactor : ∃ body ∈ c.rulesOf a, body.take factor.length = factor)
    (hb : body ∈ (c.factorOut (a, factor)).rulesOf b) (hx : x ∈ body) :
    x = .nonterminal (c.factorName a) ∨ x = .epsilon ∨
      ∃ owner, ∃ old ∈ c.rulesOf owner, x ∈ old := by
  rw [rulesOf_factorOut] at hb
  split at hb
  · obtain ⟨whole, hmem, -, hbody⟩ := mem_suffixBodies.mp hb
    rw [hbody] at hx
    rcases mem_of_mem_suffixBody hx with hx | e
    · exact .inr (.inr ⟨a, whole, hmem, hx⟩)
    · exact .inr (.inl e)
  · split at hb
    · rw [List.mem_append, List.mem_singleton] at hb
      rcases hb with hb | hb
      · exact .inr (.inr ⟨a, body, (mem_otherBodies.mp hb).1, hx⟩)
      · rw [hb, List.mem_append, List.mem_singleton] at hx
        rcases hx with hx | e
        · obtain ⟨whole, hmem, hf⟩ := hfactor
          exact .inr (.inr ⟨a, whole, hmem, List.mem_of_mem_take (hf ▸ hx)⟩)
        · exact .inl e
    · exact .inr (.inr ⟨b, body, hb, hx⟩)

/-- Factoring a prefix of an alternative keeps components closed. -/
theorem Closed.factorOut {c : Components} (h : c.Closed) {a : Symbol} (ha : a ∈ c.vars)
    {factor : Body} (hfactor : ∃ body ∈ c.rulesOf a, body.take factor.length = factor) :
    (c.factorOut (a, factor)).Closed where
  vars_nonterminal := by
    intro b hb
    rcases mem_vars_factorOut.mp hb with e | hb
    · rw [e]; rfl
    · exact h.vars_nonterminal b hb
  terminals_terminal := h.terminals_terminal
  key_declared := by
    intro b bodies hb
    rw [get?_factorOut] at hb
    rw [mem_vars_factorOut]
    split at hb
    · next e => exact .inl e.symm
    · split at hb
      · next e => exact .inr (e ▸ ha)
      · exact .inr (h.key_declared b bodies hb)
  body_declared := by
    intro b body hb x hx hk
    rw [mem_vars_factorOut]
    rcases mem_body_factorOut hfactor hb hx with e | e | ⟨owner, old, hold, hx⟩
    · exact .inl e
    · rw [e] at hk
      cases hk
    · exact .inr (h.body_declared owner old hold x hx hk)

/-- Where a prefix of an alternative is factored, every variable generates a
string if every one did before. -/
theorem Closed.productive_factorOut {c : Components} (h : c.Closed) {n : String}
    (hn : .nonterminal n ∈ c.vars) {factor : Body}
    (hfactor : ∃ body ∈ c.rulesOf (.nonterminal n), body.take factor.length = factor)
    (hp : ∀ a ∈ c.vars, Productive c.rulesOf a) :
    ∀ a ∈ (c.factorOut (.nonterminal n, factor)).vars,
      Productive (c.factorOut (.nonterminal n, factor)).rulesOf a := by
  have hf := h.factored hn factor
  have old : ∀ a ∈ c.vars, Productive (c.factorOut (.nonterminal n, factor)).rulesOf a := by
    intro a ha
    obtain ⟨w, hw⟩ := hp a ha
    exact ⟨w, hf.yields hw⟩
  intro a ha
  rcases mem_vars_factorOut.mp ha with e | ha
  · obtain ⟨whole, hmem, htake⟩ := hfactor
    have hsymbols : ∀ x ∈ suffixBody factor whole,
        Productive (c.factorOut (.nonterminal n, factor)).rulesOf x := by
      intro x hx
      cases hk : x.isNonterminal with
      | false => exact productive_of_not_nonterminal hk
      | true =>
        rcases mem_of_mem_suffixBody hx with hx | e
        · exact old x (h.body_declared _ whole hmem x hx hk)
        · rw [e] at hk
          cases hk
    obtain ⟨w, hw⟩ := exists_yields hsymbols
    refine ⟨w, e ▸ yields_nonterminal.mpr ⟨_, ?_, hw⟩⟩
    rw [hf.rest]
    exact mem_suffixBodies.mpr ⟨whole, hmem, htake, rfl⟩
  · exact old a ha

end Components

/-- What holds in the middle of a pass of factoring, with some targets still
to be factored. -/
structure FactoringPass (g : Grammar) (todo : List (Symbol × Body)) (c : Components) : Prop where
  /-- The components are closed. -/
  closed : c.Closed
  /-- No variable is lost. -/
  kept : ∀ a ∈ g.vars, a ∈ c.vars
  /-- What is still to be factored has its old alternatives. -/
  pending : ∀ target ∈ todo, c.rulesOf target.1 = g.rulesOf target.1

namespace Grammar

/-- A target is a variable with a prefix that one of its alternatives has. -/
theorem of_mem_factorable {g : Grammar} {target : Symbol × Body} (h : target ∈ g.factorable) :
    target.1 ∈ g.vars ∧ isFactor target.2 = true ∧
      ∃ body ∈ g.rulesOf target.1, body.take target.2.length = target.2 := by
  obtain ⟨a, ha, hs⟩ := List.mem_filterMap.mp h
  obtain ⟨factor, hf, rfl⟩ := Option.map_eq_some_iff.mp hs
  obtain ⟨hfactor, hbody⟩ := sharedPrefix?_eq_some hf
  exact ⟨mem_displayOrder.mp ha, hfactor, hbody⟩

/-- No variable is factored twice in a pass. -/
theorem nodup_factorable (g : Grammar) : (g.factorable.map Prod.fst).Nodup := by
  have hsub : ∀ l : List Symbol, ((l.filterMap fun a =>
      (sharedPrefix? (g.rulesOf a)).map fun p => (a, p)).map Prod.fst).Sublist l := by
    intro l
    induction l with
    | nil => exact List.Sublist.refl _
    | cons a rest ih =>
      rw [List.filterMap_cons]
      cases sharedPrefix? (g.rulesOf a) with
      | none => exact ih.cons a
      | some factor => exact ih.cons_cons a
  exact g.nodup_displayOrder.sublist (hsub g.displayOrder)

end Grammar

/-- Factoring the next target leaves the others to be factored. -/
theorem FactoringPass.step {g : Grammar} {target : Symbol × Body} {todo : List (Symbol × Body)}
    {c : Components} (h : FactoringPass g (target :: todo) c)
    (hold : ∀ t ∈ target :: todo, t ∈ g.factorable) (hn : target.1 ∉ todo.map Prod.fst) :
    FactoringPass g todo (c.factorOut target) := by
  obtain ⟨a, factor⟩ := target
  obtain ⟨hvar, -, hbody⟩ := Grammar.of_mem_factorable (hold _ List.mem_cons_self)
  rw [← h.pending _ List.mem_cons_self] at hbody
  have hnew := c.factorName_notMem a
  refine ⟨h.closed.factorOut (h.kept a hvar) hbody, ?_, ?_⟩
  · intro b hb
    exact Components.mem_vars_factorOut.mpr (.inr (h.kept b hb))
  · intro t ht
    have htvar := (Grammar.of_mem_factorable (hold t (List.mem_cons_of_mem _ ht))).1
    have hmem : t.1 ∈ todo.map Prod.fst := List.mem_map_of_mem ht
    have hta : a ≠ t.1 := fun e => hn (e ▸ hmem)
    have htnew : .nonterminal (c.factorName a) ≠ t.1 := fun e => hnew (e ▸ h.kept _ htvar)
    rw [Components.rulesOf_factorOut, if_neg htnew, if_neg hta]
    exact h.pending t (List.mem_cons_of_mem _ ht)

/-- A whole pass keeps components closed and variables productive. -/
theorem FactoringPass.finish {g : Grammar} {todo : List (Symbol × Body)} {c : Components}
    (h : FactoringPass g todo c) (hold : ∀ t ∈ todo, t ∈ g.factorable)
    (hn : (todo.map Prod.fst).Nodup) :
    (todo.foldl Components.factorOut c).Closed ∧
      ((∀ a ∈ c.vars, Productive c.rulesOf a) →
        ∀ a ∈ (todo.foldl Components.factorOut c).vars,
          Productive (todo.foldl Components.factorOut c).rulesOf a) := by
  induction todo generalizing c with
  | nil => exact ⟨h.closed, id⟩
  | cons target rest ih =>
    obtain ⟨ha, hrest⟩ := List.nodup_cons.mp hn
    have hnext := ih (h.step hold ha) (fun t ht => hold t (List.mem_cons_of_mem _ ht)) hrest
    refine ⟨hnext.1, fun hp => hnext.2 ?_⟩
    obtain ⟨hvar, -, hbody⟩ := Grammar.of_mem_factorable (hold _ List.mem_cons_self)
    rw [← h.pending _ List.mem_cons_self] at hbody
    obtain ⟨a, factor⟩ := target
    obtain ⟨n, rfl⟩ := h.closed.exists_name (h.kept a hvar)
    exact h.closed.productive_factorOut (h.kept _ hvar) hbody hp

namespace Grammar

/-- Passes of factoring keep a grammar closed and its variables
productive. -/
theorem Closed.factorPasses {limit : Nat} {g h : Grammar} (hg : g.Closed)
    (hh : g.factorPasses limit = .ok h) :
    h.Closed ∧ ((∀ a ∈ g.vars, Productive g.rulesOf a) →
      ∀ a ∈ h.vars, Productive h.rulesOf a) := by
  induction limit generalizing g with
  | zero =>
    rw [← Except.ok.inj hh]
    exact ⟨hg, id⟩
  | succ limit ih =>
    rw [Grammar.factorPasses] at hh
    split at hh
    · rw [← Except.ok.inj hh]
      exact ⟨hg, id⟩
    · obtain ⟨next, hc, hrest⟩ := exists_ok_of_bind hh
      have start : FactoringPass g g.factorable g.toComponents :=
        ⟨hg.components, fun _ ha => ha, fun _ _ => rfl⟩
      have hpass := start.finish (fun _ ht => ht) g.nodup_factorable
      rw [← Components.check_eq_ok hc] at hpass
      have hlast := ih hpass.1.grammar hrest
      exact ⟨hlast.1, fun hp => hlast.2 (hpass.2 hp)⟩

/-- Factoring keeps a grammar closed and its variables productive. -/
theorem Closed.leftFactor {g h : Grammar} (hg : g.Closed) (hh : g.leftFactor = .ok h) :
    h.Closed ∧ ((∀ a ∈ g.vars, Productive g.rulesOf a) →
      ∀ a ∈ h.vars, Productive h.rulesOf a) :=
  hg.factorPasses hh

end Grammar

end PredictiveParsing
