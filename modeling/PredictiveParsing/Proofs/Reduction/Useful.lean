import PredictiveParsing.Proofs.Derivation
import PredictiveParsing.Proofs.Grammar.Names
import PredictiveParsing.Proofs.Reduction.FreshVariables
import PredictiveParsing.Reduction.Useful

/-!
# After useless symbols are removed

Every variable that is kept generates a string, in the grammar of what is
kept. A variable is found productive through an alternative over what was
found before, and that alternative stays; the second removal keeps all
alternatives of an accessible variable, since the accessible symbols are
closed under occurrence in bodies. Removal keeps closed grammars closed.
-/

namespace PredictiveParsing.Grammar

theorem within_iff {s : SymbolSet} {body : Body} : within s body = true ↔ ∀ x ∈ body, x ∈ s := by
  simp [within]

theorem mem_producing {g : Grammar} {known : SymbolSet} {x : Symbol} :
    x ∈ g.producing known ↔ x = .epsilon ∨ x ∈ g.terminals ∨ x ∈ known := by
  simp [producing]

/-- The alternatives that are left of those of given keys. -/
theorem rulesOf_restrictRules (g : Grammar) (keys symbols : SymbolSet) (a : Symbol) :
    ((g.restrictRules keys symbols).get? a).getD [] =
      if a ∈ keys then (g.rulesOf a).filter (within symbols) else [] := by
  unfold restrictRules rulesOf
  rw [SymbolTable.get?_select]
  cases hget : g.rules.get? a with
  | none => simp
  | some bodies =>
    rw [Option.bind_some, Option.getD_some]
    split
    · unfold keptBodies
      split
      · next h => rw [h]; rfl
      · next h => rfl
    · rfl

/-- The productions over what is known to be productive. -/
def knownProductions (g : Grammar) (known : SymbolSet) : Productions := fun a =>
  if a ∈ known then (g.rulesOf a).filter (within (g.producing known)) else []

theorem mem_knownProductions {g : Grammar} {known : SymbolSet} {a : Symbol} {body : Body} :
    body ∈ g.knownProductions known a ↔
      a ∈ known ∧ body ∈ g.rulesOf a ∧ ∀ x ∈ body, x ∈ g.producing known := by
  unfold knownProductions
  split
  · next h => rw [List.mem_filter, within_iff]; exact ⟨fun hb => ⟨h, hb⟩, fun hb => hb.2⟩
  · next h => exact ⟨fun hb => absurd hb List.not_mem_nil, fun hb => absurd hb.1 h⟩

/-- With more known there are more productions. -/
theorem knownProductions_mono {g : Grammar} {known more : SymbolSet} (h : known ⊆ more) :
    ∀ a, ∀ body ∈ g.knownProductions known a, body ∈ g.knownProductions more a := by
  intro a body hb
  obtain ⟨ha, hr, hall⟩ := mem_knownProductions.mp hb
  refine mem_knownProductions.mpr ⟨h a ha, hr, fun x hx => ?_⟩
  rcases mem_producing.mp (hall x hx) with hx | hx | hx
  · exact mem_producing.mpr (.inl hx)
  · exact mem_producing.mpr (.inr (.inl hx))
  · exact mem_producing.mpr (.inr (.inr (h x hx)))

/-- A step adds the variables with an alternative over what is known. -/
theorem mem_productiveStep {g : Grammar} {known : SymbolSet} {a : Symbol} :
    a ∈ g.productiveStep known ↔
      a ∈ known ∨ ∃ body ∈ g.rulesOf a, ∀ x ∈ body, x ∈ g.producing known := by
  unfold productiveStep
  rw [SymbolSet.mem_union, SymbolSet.mem_ofList, List.mem_map]
  refine or_congr_right ⟨?_, ?_⟩
  · intro ⟨entry, he, hkey⟩
    obtain ⟨hmem, hany⟩ := List.mem_filter.mp he
    obtain ⟨body, hb, hw⟩ := List.any_eq_true.mp hany
    rw [← hkey]
    exact ⟨body, Components.mem_rulesOf_iff_mem_entries.mpr ⟨entry.2, hmem, hb⟩,
      within_iff.mp hw⟩
  · intro ⟨body, hb, hw⟩
    obtain ⟨bodies, hentry, hmem⟩ := Components.mem_rulesOf_iff_mem_entries.mp hb
    refine ⟨(a, bodies), List.mem_filter.mpr ⟨hentry, ?_⟩, rfl⟩
    exact List.any_eq_true.mpr ⟨body, hmem, within_iff.mpr hw⟩

/-- What is found productive so far: variables that generate a string over
what is found so far. -/
def ProductiveSoFar (g : Grammar) (known : SymbolSet) : Prop :=
  ∀ a ∈ known, a ∈ g.vars ∧ Productive (g.knownProductions known) a

/-- A step finds productive variables only. -/
theorem ProductiveSoFar.step {g : Grammar} (hg : g.Closed) {known : SymbolSet}
    (h : g.ProductiveSoFar known) : g.ProductiveSoFar (g.productiveStep known) := by
  have grows : known ⊆ g.productiveStep known := fun a ha => mem_productiveStep.mpr (.inl ha)
  have old : ∀ a ∈ known, Productive (g.knownProductions (g.productiveStep known)) a := by
    intro a ha
    obtain ⟨w, hw⟩ := (h a ha).2
    exact ⟨w, hw.mono (knownProductions_mono grows)⟩
  intro a ha
  rcases mem_productiveStep.mp ha with hold | hnew
  · exact ⟨(h a hold).1, old a hold⟩
  · obtain ⟨body, hb, hall⟩ := hnew
    have hvar := mem_vars_of_mem_rulesOf hb
    obtain ⟨n, hn⟩ := hg.components.exists_name hvar
    have hsymbols : ∀ x ∈ body, Productive (g.knownProductions (g.productiveStep known)) x := by
      intro x hx
      rcases mem_producing.mp (hall x hx) with e | hx | hx
      · rw [e]
        exact productive_of_not_nonterminal rfl
      · refine productive_of_not_nonterminal ?_
        have := hg.terminals_terminal x hx
        cases x with
        | terminal t => rfl
        | epsilon => rfl
        | nonterminal n => cases this
      · exact old x hx
    obtain ⟨w, hw⟩ := exists_yields hsymbols
    refine ⟨hvar, w, hn ▸ yields_nonterminal.mpr ⟨body, hn ▸ ?_, hw⟩⟩
    refine mem_knownProductions.mpr ⟨ha, hb, fun x hx => ?_⟩
    rcases mem_producing.mp (hall x hx) with hx | hx | hx
    · exact mem_producing.mpr (.inl hx)
    · exact mem_producing.mpr (.inr (.inl hx))
    · exact mem_producing.mpr (.inr (.inr (grows x hx)))

/-- The variables found in the end generate strings over each other. -/
theorem Closed.productiveSoFar {g : Grammar} (hg : g.Closed) : g.ProductiveSoFar g.productive :=
  stabilize_induction (fun _ h => h.step hg) _ _ fun a ha => absurd ha (SymbolSet.not_mem_empty a)

/-- The symbols in the bodies of known symbols are added by a step. -/
theorem mem_accessibleStep {g : Grammar} {known : SymbolSet} {x : Symbol} :
    x ∈ g.accessibleStep known ↔
      x ∈ known ∨ ∃ a ∈ known, ∃ body ∈ g.rulesOf a, x ∈ body := by
  unfold accessibleStep
  rw [SymbolSet.mem_union, SymbolSet.mem_ofList, List.mem_flatMap]
  refine or_congr_right ⟨?_, ?_⟩
  · intro ⟨entry, he, hx⟩
    obtain ⟨hmem, hkey⟩ := List.mem_filter.mp he
    obtain ⟨body, hb, hxb⟩ := List.mem_flatten.mp hx
    exact ⟨entry.1, of_decide_eq_true hkey, body,
      Components.mem_rulesOf_iff_mem_entries.mpr ⟨entry.2, hmem, hb⟩, hxb⟩
  · intro ⟨a, ha, body, hb, hx⟩
    obtain ⟨bodies, hentry, hmem⟩ := Components.mem_rulesOf_iff_mem_entries.mp hb
    refine ⟨(a, bodies), List.mem_filter.mpr ⟨hentry, ?_⟩, ?_⟩
    · exact decide_eq_true ha
    · exact List.mem_flatten.mpr ⟨body, hmem, hx⟩

/-- The steps towards the accessible symbols end within their limit. -/
theorem accessibleStep_accessible (g : Grammar) : g.accessibleStep g.accessible = g.accessible := by
  have grows : ∀ s : SymbolSet, s ⊆ g.accessibleStep s :=
    fun s x hx => mem_accessibleStep.mpr (.inl hx)
  let inside : SymbolSet → Prop := fun s => ∀ x ∈ s, x ∈ g.start :: g.symbolsOfBodies
  refine @step_stabilize _ _ _ inside SymbolSet.size (g.bodySymbols + 1) ?_ ?_ ?_ _ _ ?_ ?_
  · intro s hs x hx
    rcases mem_accessibleStep.mp hx with hx | hx
    · exact hs x hx
    · obtain ⟨a, -, body, hb, hxb⟩ := hx
      exact List.mem_cons_of_mem _ (mem_symbolsOfBodies hb hxb)
  · intro s _ hne
    exact SymbolSet.size_lt_of_subset (grows s) (Ne.symm hne)
  · intro s hs
    exact SymbolSet.size_le_length hs
  · intro x hx
    rw [SymbolSet.mem_singleton.mp hx]
    exact List.mem_cons_self
  · have hone : (SymbolSet.singleton g.start).size = 1 := rfl
    rw [hone]
    omega

/-- What occurs in a body of an accessible symbol is accessible. -/
theorem mem_accessible_of_mem_body {g : Grammar} {a x : Symbol} {body : Body}
    (ha : a ∈ g.accessible) (hb : body ∈ g.rulesOf a) (hx : x ∈ body) : x ∈ g.accessible := by
  rw [← accessibleStep_accessible]
  exact mem_accessibleStep.mpr (.inr ⟨a, ha, body, hb, hx⟩)

/-- The components that are left by the first removal. -/
theorem removeUnproductive_eq_ok {g h : Grammar} (hh : g.removeUnproductive = .ok h) :
    h.vars = g.productive ∧ h.terminals = g.terminals ∧ h.start = g.start ∧
      h.rulesOf = g.knownProductions g.productive := by
  unfold removeUnproductive at hh
  dsimp only at hh
  split at hh
  · have hc := Components.check_eq_ok hh
    refine ⟨by rw [hc], by rw [hc], by rw [hc], funext fun a => ?_⟩
    unfold rulesOf
    rw [hc]
    exact g.rulesOf_restrictRules _ _ a
  · cases hh

/-- The components that are left by the second removal. -/
theorem removeInaccessible_eq_ok {g h : Grammar} (hh : g.removeInaccessible = .ok h) :
    h.vars = g.vars ∩ g.accessible ∧ h.terminals = g.terminals ∩ g.accessible ∧
      h.start = g.start ∧ ∀ a, h.rulesOf a = if a ∈ g.accessible then g.rulesOf a else [] := by
  unfold removeInaccessible at hh
  dsimp only at hh
  have hc := Components.check_eq_ok hh
  refine ⟨by rw [hc], by rw [hc], by rw [hc], fun a => ?_⟩
  have hr := g.rulesOf_restrictRules g.accessible g.accessible a
  unfold rulesOf at hr ⊢
  rw [hc, hr]
  split
  · next ha =>
    refine List.filter_eq_self.mpr fun body hb => within_iff.mpr fun x hx => ?_
    exact mem_accessible_of_mem_body ha hb hx
  · rfl

/-- After the first removal the grammar is closed and every variable
generates a string. -/
theorem Closed.removeUnproductive {g h : Grammar} (hg : g.Closed)
    (hh : g.removeUnproductive = .ok h) :
    h.Closed ∧ ∀ a ∈ h.vars, Productive h.rulesOf a := by
  obtain ⟨hvars, hterms, -, hrules⟩ := removeUnproductive_eq_ok hh
  have hp := hg.productiveSoFar
  refine ⟨⟨?_, ?_, ?_⟩, ?_⟩
  · intro a ha
    rw [hvars] at ha
    exact hg.vars_nonterminal a (hp a ha).1
  · intro a ha
    rw [hterms] at ha
    exact hg.terminals_terminal a ha
  · intro a body hb x hx hk
    rw [hrules] at hb
    rw [hvars]
    rcases mem_producing.mp ((mem_knownProductions.mp hb).2.2 x hx) with e | ht | hx
    · rw [e] at hk
      cases hk
    · have := hg.terminals_terminal x ht
      cases x with
      | nonterminal n => cases this
      | terminal t => cases hk
      | epsilon => cases hk
    · exact hx
  · intro a ha
    rw [hvars] at ha
    rw [hrules]
    exact (hp a ha).2

/-- After the second removal the grammar is closed, and every variable that
generates a string still does. -/
theorem Closed.removeInaccessible {g h : Grammar} (hg : g.Closed)
    (hh : g.removeInaccessible = .ok h) (hp : ∀ a ∈ g.vars, Productive g.rulesOf a) :
    h.Closed ∧ ∀ a ∈ h.vars, Productive h.rulesOf a := by
  obtain ⟨hvars, hterms, -, hrules⟩ := removeInaccessible_eq_ok hh
  have hbody : ∀ a body, body ∈ h.rulesOf a → a ∈ g.accessible ∧ body ∈ g.rulesOf a := by
    intro a body hb
    rw [hrules] at hb
    split at hb
    · next ha => exact ⟨ha, hb⟩
    · exact absurd hb List.not_mem_nil
  refine ⟨⟨?_, ?_, ?_⟩, ?_⟩
  · intro a ha
    rw [hvars] at ha
    exact hg.vars_nonterminal a (SymbolSet.mem_inter.mp ha).1
  · intro a ha
    rw [hterms] at ha
    exact hg.terminals_terminal a (SymbolSet.mem_inter.mp ha).1
  · intro a body hb x hx hk
    obtain ⟨ha, hold⟩ := hbody a body hb
    rw [hvars, SymbolSet.mem_inter]
    exact ⟨hg.body_declared a body hold x hx hk, mem_accessible_of_mem_body ha hold hx⟩
  · intro a ha
    rw [hvars, SymbolSet.mem_inter] at ha
    obtain ⟨w, hw⟩ := hp a ha.1
    -- all symbols that occur in the derivation are accessible
    have hkeep : ∀ b, b ∈ g.accessible → ∀ body ∈ g.rulesOf b,
        body ∈ h.rulesOf b ∧ ∀ x ∈ body, x ∈ g.accessible := by
      intro b hb body hmem
      rw [hrules, if_pos hb]
      exact ⟨hmem, fun x hx => mem_accessible_of_mem_body hb hmem hx⟩
    exact ⟨w, hw.mono_within hkeep (List.forall_mem_singleton.mpr ha.2)⟩

/-- After useless symbols are removed the grammar is closed and every
variable generates a string. -/
theorem Closed.removeUseless {g h : Grammar} (hg : g.Closed) (hh : g.removeUseless = .ok h) :
    h.Closed ∧ ∀ a ∈ h.vars, Productive h.rulesOf a := by
  unfold Grammar.removeUseless at hh
  obtain ⟨mid, hu, hrest⟩ := exists_ok_of_bind hh
  obtain ⟨hmid, hp⟩ := hg.removeUnproductive hu
  exact hmid.removeInaccessible hrest hp

end PredictiveParsing.Grammar
