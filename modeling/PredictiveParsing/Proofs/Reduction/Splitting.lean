import PredictiveParsing.Proofs.Reduction.LeftRecursion

/-!
# One pass of splitting

All recursive variables of a grammar are split one after the other. While
this goes on, variables that are still to be split have their old
alternatives, all others are not recursive, and every variable of the
grammar yields what it did. After the pass nothing is recursive. The pass
ends in a grammar exactly if every recursive variable has an alternative
without recursion, and it has one if it generates any string at all.
-/

namespace PredictiveParsing

/-- A body without a symbol does not recurse on it. -/
theorem recursesOn_eq_false {a : Symbol} {body : Body} (h : body.head? = some a → body = [a]) :
    recursesOn a body = false := by
  match body with
  | [] => rfl
  | [_] => rfl
  | x :: y :: rest =>
    refine beq_eq_false_iff_ne.mpr fun e => ?_
    have := h (congrArg some e)
    rw [List.cons.injEq] at this
    exact absurd this.2 (List.cons_ne_nil _ _)

/-- A nonterminal that generates a string has an alternative that does not
start with it. -/
theorem exists_base_of_productive {P : Productions} {n : String}
    (h : Productive P (.nonterminal n)) :
    ∃ body ∈ P (.nonterminal n), body.head? ≠ some (.nonterminal n) := by
  by_contra hn
  push Not at hn
  obtain ⟨w, hw⟩ := h
  -- read the variable as the empty set of strings, all others as any string
  have hs : Spells (fun a _ => a ≠ .nonterminal n) [.nonterminal n] w := by
    refine hw.spells (by simp) (by simp) fun m body hb x hx e => ?_
    rw [e] at hb
    obtain ⟨rest, hrest⟩ := head?_eq_some_iff_exists.mp (hn body hb)
    rw [hrest] at hx
    obtain ⟨_, _, -, hne, -⟩ := hx
    exact hne rfl
  exact spells_singleton.mp hs rfl

namespace Components

/-- The name of the variable that takes the alternatives without recursion. -/
def splitFirst (c : Components) (a : Symbol) : String := freshName a.name c.usedNames

/-- The name of the variable that takes what follows the recursion. -/
def splitSecond (c : Components) (a : Symbol) : String :=
  freshName a.name (c.splitFirst a :: c.usedNames)

theorem splitFirst_notMem (c : Components) (a : Symbol) :
    .nonterminal (c.splitFirst a) ∉ c.vars :=
  notMem_vars_of_name (freshName_notMem _ _)

theorem splitSecond_notMem (c : Components) (a : Symbol) :
    .nonterminal (c.splitSecond a) ∉ c.vars :=
  notMem_vars_of_name fun h => freshName_notMem _ _ (List.mem_cons_of_mem _ h)

theorem splitSecond_ne (c : Components) (a : Symbol) : c.splitSecond a ≠ c.splitFirst a :=
  fun h => freshName_notMem a.name (c.splitFirst a :: c.usedNames)
    (show c.splitSecond a ∈ _ from h ▸ List.mem_cons_self)

/-- The alternatives after a split. -/
theorem rulesOf_splitRecursion (c : Components) (a b : Symbol) :
    (c.splitRecursion a).rulesOf b =
      if .nonterminal (c.splitSecond a) = b then
        tailBodies a (.nonterminal (c.splitSecond a)) (c.rulesOf a) ++ [epsilonBody]
      else if .nonterminal (c.splitFirst a) = b then baseBodies a (c.rulesOf a)
      else if a = b then [[.nonterminal (c.splitFirst a), .nonterminal (c.splitSecond a)]]
      else c.rulesOf b := by
  unfold splitRecursion
  rw [rulesOf_addVariable, rulesOf_addVariable, rulesOf_setRules]
  rfl

/-- The variables after a split. -/
theorem mem_vars_splitRecursion {c : Components} {a b : Symbol} :
    b ∈ (c.splitRecursion a).vars ↔ b = .nonterminal (c.splitSecond a) ∨
      b = .nonterminal (c.splitFirst a) ∨ b ∈ c.vars := by
  unfold splitRecursion
  rw [mem_vars_addVariable, mem_vars_addVariable, vars_setRules]
  rfl

/-- The rule table after a split. -/
theorem get?_splitRecursion (c : Components) (a b : Symbol) :
    (c.splitRecursion a).rules.get? b =
      if .nonterminal (c.splitSecond a) = b then
        some (tailBodies a (.nonterminal (c.splitSecond a)) (c.rulesOf a) ++ [epsilonBody])
      else if .nonterminal (c.splitFirst a) = b then some (baseBodies a (c.rulesOf a))
      else if a = b then some [[.nonterminal (c.splitFirst a), .nonterminal (c.splitSecond a)]]
      else c.rules.get? b := by
  unfold splitRecursion addVariable setRules
  dsimp only
  rw [SymbolTable.get?_set, SymbolTable.get?_set, SymbolTable.get?_set]
  rfl

/-- Splitting a variable of closed components splits its productions. -/
theorem Closed.split {c : Components} (h : c.Closed) {n : String} (hn : .nonterminal n ∈ c.vars) :
    Split c.rulesOf (c.splitRecursion (.nonterminal n)).rulesOf n
      (c.splitFirst (.nonterminal n)) (c.splitSecond (.nonterminal n)) := by
  have hu := c.splitFirst_notMem (.nonterminal n)
  have hv := c.splitSecond_notMem (.nonterminal n)
  have hun : c.splitFirst (.nonterminal n) ≠ n := fun e => hu (e.symm ▸ hn)
  have hvn : c.splitSecond (.nonterminal n) ≠ n := fun e => hv (e.symm ▸ hn)
  have hvu := c.splitSecond_ne (.nonterminal n)
  refine ⟨?_, ?_, ?_, ?_, hun, hvn, hvu, h.rulesOf_eq_nil hu, h.rulesOf_eq_nil hv,
    fun a body hb => h.notMem_body hu hb, fun a body hb => h.notMem_body hv hb⟩
  · rw [rulesOf_splitRecursion, if_neg fun e => hvn (Symbol.nonterminal.inj e),
      if_neg fun e => hun (Symbol.nonterminal.inj e), if_pos rfl]
  · rw [rulesOf_splitRecursion, if_neg fun e => hvu (Symbol.nonterminal.inj e), if_pos rfl]
  · rw [rulesOf_splitRecursion, if_pos rfl]
  · intro m hmn hmu hmv
    rw [rulesOf_splitRecursion, if_neg fun e => hmv (Symbol.nonterminal.inj e).symm,
      if_neg fun e => hmu (Symbol.nonterminal.inj e).symm,
      if_neg fun e => hmn (Symbol.nonterminal.inj e).symm]

/-- A symbol of a body after a split is new, the empty string or a symbol of a
body before. -/
theorem mem_body_splitRecursion {c : Components} {a b x : Symbol} {body : Body}
    (hb : body ∈ (c.splitRecursion a).rulesOf b) (hx : x ∈ body) :
    x = .nonterminal (c.splitSecond a) ∨ x = .nonterminal (c.splitFirst a) ∨ x = .epsilon ∨
      ∃ owner, ∃ old ∈ c.rulesOf owner, x ∈ old := by
  rw [rulesOf_splitRecursion] at hb
  split at hb
  · rw [List.mem_append, List.mem_singleton] at hb
    rcases hb with hb | hb
    · obtain ⟨rest, hrest, hbody⟩ := mem_tailBodies.mp hb
      rw [hbody, List.mem_append, List.mem_singleton] at hx
      rcases hx with hx | hx
      · exact .inr (.inr (.inr ⟨a, _, hrest, List.mem_cons_of_mem _ hx⟩))
      · exact .inl hx
    · rw [hb, epsilonBody, List.mem_singleton] at hx
      exact .inr (.inr (.inl hx))
  · split at hb
    · exact .inr (.inr (.inr ⟨a, body, (mem_baseBodies.mp hb).1, hx⟩))
    · split at hb
      · rw [List.mem_singleton] at hb
        rw [hb, List.mem_cons, List.mem_singleton] at hx
        exact hx.elim (fun e => .inr (.inl e)) .inl
      · exact .inr (.inr (.inr ⟨b, body, hb, hx⟩))

/-- A split keeps components closed. -/
theorem Closed.splitRecursion {c : Components} (h : c.Closed) {a : Symbol} (ha : a ∈ c.vars) :
    (c.splitRecursion a).Closed where
  vars_nonterminal := by
    intro b hb
    rcases mem_vars_splitRecursion.mp hb with e | e | hb
    · rw [e]; rfl
    · rw [e]; rfl
    · exact h.vars_nonterminal b hb
  terminals_terminal := h.terminals_terminal
  key_declared := by
    intro b bodies hb
    rw [get?_splitRecursion] at hb
    rw [mem_vars_splitRecursion]
    split at hb
    · next e => exact .inl e.symm
    · split at hb
      · next e => exact .inr (.inl e.symm)
      · split at hb
        · next e => exact .inr (.inr (e ▸ ha))
        · exact .inr (.inr (h.key_declared b bodies hb))
  body_declared := by
    intro b body hb x hx hk
    rw [mem_vars_splitRecursion]
    rcases mem_body_splitRecursion hb hx with e | e | e | ⟨owner, old, hold, hx⟩
    · exact .inl e
    · exact .inr (.inl e)
    · rw [e] at hk
      cases hk
    · exact .inr (.inr (h.body_declared owner old hold x hx hk))

/-- A split keeps components valid if there is an alternative without
recursion. -/
theorem Valid.splitRecursion {c : Components} (h : c.Valid) {a : Symbol} (ha : a ∈ c.vars)
    (hbase : ∃ body ∈ c.rulesOf a, body.head? ≠ some a) : (c.splitRecursion a).Valid := by
  have hwhole : Body.Proper
      [.nonterminal (c.splitFirst a), .nonterminal (c.splitSecond a)] :=
    ⟨List.cons_ne_nil _ _, fun he => by simp at he⟩
  have htail : ∀ body ∈ tailBodies a (.nonterminal (c.splitSecond a)) (c.rulesOf a) ++
      [epsilonBody], Body.Proper body := by
    intro body hb
    rw [List.mem_append, List.mem_singleton] at hb
    rcases hb with hb | hb
    · obtain ⟨rest, hrest, hbody⟩ := mem_tailBodies.mp hb
      refine ⟨fun e => ?_, fun he => ?_⟩
      · rw [hbody] at e
        exact absurd e (List.append_ne_nil_of_right_ne_nil _ (List.cons_ne_nil _ _))
      · have hmem : .epsilon ∈ rest := by
          rw [hbody, List.mem_append, List.mem_singleton] at he
          exact he.resolve_right fun e => by cases e
        have := (h.proper a _ hrest).epsilon_alone (List.mem_cons_of_mem _ hmem)
        rw [epsilonBody, List.cons.injEq] at this
        exact absurd hmem (this.2 ▸ List.not_mem_nil)
    · rw [hb]
      exact proper_epsilonBody
  obtain ⟨body, hb, hh⟩ := hbase
  have hset := h.setRules ha (List.cons_ne_nil _ _) (List.forall_mem_singleton.mpr hwhole)
  have hfirst : (Components.addVariable (c.setRules a _) a _ (baseBodies a (c.rulesOf a))).Valid :=
    hset.addVariable (c.splitFirst_notMem a) (List.ne_nil_of_mem (mem_baseBodies.mpr ⟨hb, hh⟩))
      fun body hb => h.proper a body (mem_baseBodies.mp hb).1
  refine hfirst.addVariable ?_ ?_ htail
  · rw [mem_vars_addVariable]
    refine fun hm => hm.elim (fun e => ?_) (c.splitSecond_notMem a)
    exact c.splitSecond_ne a (Symbol.nonterminal.inj e)
  · exact List.append_ne_nil_of_right_ne_nil _ (List.cons_ne_nil _ _)

/-- After a split every variable generates a string if every one did before. -/
theorem Closed.productive_splitRecursion {c : Components} (h : c.Closed) {n : String}
    (hn : .nonterminal n ∈ c.vars) (hp : ∀ a ∈ c.vars, Productive c.rulesOf a) :
    ∀ a ∈ (c.splitRecursion (.nonterminal n)).vars,
      Productive (c.splitRecursion (.nonterminal n)).rulesOf a := by
  have hs := h.split hn
  have hu := c.splitFirst_notMem (.nonterminal n)
  have hv := c.splitSecond_notMem (.nonterminal n)
  have old : ∀ a ∈ c.vars, Productive (c.splitRecursion (.nonterminal n)).rulesOf a := by
    intro a ha
    obtain ⟨w, hw⟩ := hp a ha
    refine ⟨w, (hs.yields_iff ?_ ?_).mpr hw⟩
    · exact fun hm => hu (List.mem_singleton.mp hm ▸ ha)
    · exact fun hm => hv (List.mem_singleton.mp hm ▸ ha)
  intro a ha
  rcases mem_vars_splitRecursion.mp ha with e | e | ha
  · refine ⟨[], e ▸ yields_nonterminal.mpr ⟨epsilonBody, ?_, yields_epsilonBody.mpr rfl⟩⟩
    rw [hs.tail, List.mem_append]
    exact .inr List.mem_cons_self
  · obtain ⟨body, hb, hh⟩ := exists_base_of_productive (hp _ hn)
    have hsymbols : ∀ x ∈ body, Productive (c.splitRecursion (.nonterminal n)).rulesOf x := by
      intro x hx
      cases hk : x.isNonterminal with
      | true => exact old x (h.body_declared _ body hb x hx hk)
      | false => exact productive_of_not_nonterminal hk
    obtain ⟨w, hw⟩ := exists_yields hsymbols
    refine ⟨w, e ▸ yields_nonterminal.mpr ⟨body, ?_, hw⟩⟩
    rw [hs.base]
    exact mem_baseBodies.mpr ⟨hb, hh⟩
  · exact old a ha

end Components

/-- What holds in the middle of a pass of splitting, with some variables
still to be split. -/
structure Splitting (g : Grammar) (todo : List Symbol) (c : Components) : Prop where
  /-- The components are closed. -/
  closed : c.Closed
  /-- No variable is lost. -/
  kept : ∀ a ∈ g.vars, a ∈ c.vars
  /-- What is still to be split has its old alternatives. -/
  pending : ∀ a ∈ todo, c.rulesOf a = g.rulesOf a
  /-- The old variables yield what they did. -/
  yields : ∀ a ∈ g.vars, ∀ w, Yields c.rulesOf [a] w ↔ Yields g.rulesOf [a] w
  /-- What is not to be split is not recursive. -/
  settled : ∀ a ∈ c.vars, a ∉ todo → ∀ body ∈ c.rulesOf a, recursesOn a body = false

namespace Grammar

/-- The recursive variables are variables with a recursive alternative. -/
theorem mem_leftRecursive {g : Grammar} {a : Symbol} :
    a ∈ g.leftRecursive ↔ a ∈ g.vars ∧ ∃ body ∈ g.rulesOf a, recursesOn a body = true := by
  unfold leftRecursive
  rw [List.mem_filter, mem_displayOrder, List.any_eq_true]

/-- No variable is to be split twice. -/
theorem nodup_leftRecursive (g : Grammar) : g.leftRecursive.Nodup := g.nodup_displayOrder.filter _

/-- Nothing is recursive if no alternative is. -/
theorem leftRecursive_eq_nil {g : Grammar}
    (h : ∀ a ∈ g.vars, ∀ body ∈ g.rulesOf a, recursesOn a body = false) : g.leftRecursive = [] := by
  refine List.eq_nil_iff_forall_not_mem.mpr fun a ha => ?_
  obtain ⟨hmem, body, hb, hr⟩ := mem_leftRecursive.mp ha
  rw [h a hmem body hb] at hr
  cases hr

/-- Before the pass, the recursive variables are to be split. -/
theorem Closed.splitting {g : Grammar} (h : g.Closed) :
    Splitting g g.leftRecursive g.toComponents where
  closed := h.components
  kept := fun _ ha => ha
  pending := fun _ _ => rfl
  yields := fun _ _ _ => Iff.rfl
  settled := by
    intro a ha hn body hb
    by_contra hr
    exact hn (mem_leftRecursive.mpr ⟨ha, body, hb, eq_true_of_ne_false hr⟩)

end Grammar

/-- A split of the next variable leaves the others to be split. -/
theorem Splitting.step {g : Grammar} {a : Symbol} {todo : List Symbol} {c : Components}
    (h : Splitting g (a :: todo) c) (ha : a ∈ g.vars) (hold : ∀ b ∈ todo, b ∈ g.vars)
    (hn : a ∉ todo) : Splitting g todo (c.splitRecursion a) := by
  obtain ⟨n, rfl⟩ := h.closed.exists_name (h.kept a ha)
  have hs := h.closed.split (h.kept _ ha)
  have hu := c.splitFirst_notMem (.nonterminal n)
  have hv := c.splitSecond_notMem (.nonterminal n)
  have same : ∀ b ∈ c.vars, b ≠ .nonterminal n →
      (c.splitRecursion (.nonterminal n)).rulesOf b = c.rulesOf b := by
    intro b hb hbn
    have hbv : .nonterminal (c.splitSecond (.nonterminal n)) ≠ b := fun e => hv (e ▸ hb)
    have hbu : .nonterminal (c.splitFirst (.nonterminal n)) ≠ b := fun e => hu (e ▸ hb)
    rw [Components.rulesOf_splitRecursion, if_neg hbv, if_neg hbu, if_neg hbn.symm]
  refine ⟨h.closed.splitRecursion (h.kept _ ha), ?_, ?_, ?_, ?_⟩
  · intro b hb
    exact Components.mem_vars_splitRecursion.mpr (.inr (.inr (h.kept b hb)))
  · intro b hb
    have hbn : b ≠ .nonterminal n := fun e => hn (e ▸ hb)
    rw [same b (h.kept b (hold b hb)) hbn]
    exact h.pending b (List.mem_cons_of_mem _ hb)
  · intro b hb w
    rw [← h.yields b hb w]
    refine hs.yields_iff ?_ ?_
    · exact fun hm => hu (List.mem_singleton.mp hm ▸ h.kept b hb)
    · exact fun hm => hv (List.mem_singleton.mp hm ▸ h.kept b hb)
  · intro b hb hbt body hbody
    rcases Components.mem_vars_splitRecursion.mp hb with e | e | hold
    · rw [e, hs.tail, List.mem_append, List.mem_singleton] at hbody
      rcases hbody with hbody | hbody
      · obtain ⟨rest, hrest, hb'⟩ := mem_tailBodies.mp hbody
        rw [e, hb']
        refine recursesOn_eq_false fun hh => ?_
        cases rest with
        | nil => rfl
        | cons x rest =>
          have hx : x = .nonterminal (c.splitSecond (.nonterminal n)) := Option.some.inj hh
          have hmem : x ∈ .nonterminal n :: x :: rest := by simp
          exact absurd (hx ▸ hmem) (hs.second_new _ _ hrest)
      · rw [e, hbody]
        rfl
    · rw [e, hs.base] at hbody
      rw [e]
      refine recursesOn_eq_false fun hh => ?_
      exact absurd (List.mem_of_head? hh) (hs.first_new _ _ (mem_baseBodies.mp hbody).1)
    · by_cases hbn : b = .nonterminal n
      · rw [hbn, hs.whole, List.mem_singleton] at hbody
        rw [hbn, hbody]
        exact beq_eq_false_iff_ne.mpr fun e => hs.first_ne (Symbol.nonterminal.inj e)
      · rw [same b hold hbn] at hbody
        exact h.settled b hold (fun hm => (List.mem_cons.mp hm).elim hbn hbt) body hbody

namespace Grammar

/-- The components after one pass of splitting. -/
def splitAll (g : Grammar) : Components :=
  g.leftRecursive.foldl Components.splitRecursion g.toComponents

/-- Every variable to be split is one of the grammar. -/
theorem mem_vars_of_mem_leftRecursive {g : Grammar} :
    ∀ a ∈ g.leftRecursive, a ∈ g.vars :=
  fun _ ha => (mem_leftRecursive.mp ha).1

/-- What holds before the pass and is kept by every split holds after the
pass. -/
theorem Closed.splitAll_induction {g : Grammar} (hg : g.Closed)
    {holds : List Symbol → Components → Prop} (start : holds g.leftRecursive g.toComponents)
    (keep : ∀ a rest c, Splitting g (a :: rest) c → a ∈ g.vars → (∀ b ∈ rest, b ∈ g.vars) →
      holds (a :: rest) c → holds rest (c.splitRecursion a)) :
    Splitting g [] g.splitAll ∧ holds [] g.splitAll := by
  have pass : ∀ todo c, Splitting g todo c → (∀ a ∈ todo, a ∈ g.vars) → todo.Nodup →
      holds todo c → Splitting g [] (todo.foldl Components.splitRecursion c) ∧
        holds [] (todo.foldl Components.splitRecursion c) := by
    intro todo
    induction todo with
    | nil => exact fun c h _ _ hc => ⟨h, hc⟩
    | cons a rest ih =>
      intro c h hold hn hc
      obtain ⟨ha, hrest⟩ := List.nodup_cons.mp hn
      have hrestOld : ∀ b ∈ rest, b ∈ g.vars := fun b hb => hold b (List.mem_cons_of_mem _ hb)
      have hmem := hold a List.mem_cons_self
      exact ih _ (h.step hmem hrestOld ha) hrestOld hrest (keep a rest c h hmem hrestOld hc)
  exact pass _ _ hg.splitting mem_vars_of_mem_leftRecursive g.nodup_leftRecursive start

/-- A whole pass ends with nothing to be split. -/
theorem Closed.splitAll {g : Grammar} (hg : g.Closed) : Splitting g [] g.splitAll :=
  (@Closed.splitAll_induction g hg (fun _ _ => True) trivial fun _ _ _ _ _ _ _ => trivial).1

/-- A whole pass ends in valid components if everything that is split has an
alternative without recursion. -/
theorem Closed.valid_splitAll {g : Grammar} (hg : g.Closed)
    (hbase : ∀ a ∈ g.leftRecursive, ∃ body ∈ g.rulesOf a, body.head? ≠ some a) :
    g.splitAll.Valid := by
  refine (@Closed.splitAll_induction g hg (fun todo c => c.Valid ∧
    ∀ a ∈ todo, ∃ body ∈ g.rulesOf a, body.head? ≠ some a) ⟨g.valid, hbase⟩ ?_).2.1
  intro a rest c h hmem _ hc
  refine ⟨hc.1.splitRecursion (h.kept a hmem) ?_, fun b hb => hc.2 b (List.mem_cons_of_mem _ hb)⟩
  rw [h.pending a List.mem_cons_self]
  exact hc.2 a List.mem_cons_self

/-- A whole pass keeps variables productive. -/
theorem Closed.productive_splitAll {g : Grammar} (hg : g.Closed)
    (hp : ∀ a ∈ g.vars, Productive g.rulesOf a) :
    ∀ a ∈ g.splitAll.vars, Productive g.splitAll.rulesOf a := by
  refine (@Closed.splitAll_induction g hg
    (fun _ c => ∀ a ∈ c.vars, Productive c.rulesOf a) hp ?_).2
  intro a rest c h hmem _ hc
  obtain ⟨n, rfl⟩ := h.closed.exists_name (h.kept a hmem)
  exact h.closed.productive_splitRecursion (h.kept _ hmem) hc

end Grammar

/-- A variable that has an entry without alternatives and is not to be split
any more. -/
def Components.Barren (c : Components) (todo : List Symbol) : Prop :=
  ∃ a ∈ c.vars, a ∉ todo ∧ c.rules.get? a = some []

/-- A split keeps a variable without alternatives. -/
theorem Components.Barren.splitRecursion {c : Components} {a : Symbol} {rest : List Symbol}
    (h : c.Barren (a :: rest)) : (c.splitRecursion a).Barren rest := by
  obtain ⟨b, hbmem, hbtodo, hget⟩ := h
  have hba : a ≠ b := fun e => hbtodo (e ▸ List.mem_cons_self)
  have hbv : .nonterminal (c.splitSecond a) ≠ b := fun e => c.splitSecond_notMem a (e ▸ hbmem)
  have hbu : .nonterminal (c.splitFirst a) ≠ b := fun e => c.splitFirst_notMem a (e ▸ hbmem)
  refine ⟨b, Components.mem_vars_splitRecursion.mpr (.inr (.inr hbmem)), ?_, ?_⟩
  · exact fun hm => hbtodo (List.mem_cons_of_mem _ hm)
  · rwa [Components.get?_splitRecursion, if_neg hbv, if_neg hbu, if_neg hba]

/-- A split of a variable with recursive alternatives only leaves one without
alternatives. -/
theorem Components.barren_splitRecursion {c : Components} {a : Symbol} {rest : List Symbol}
    (hrest : ∀ b ∈ rest, b ∈ c.vars) (hall : ∀ body ∈ c.rulesOf a, body.head? = some a) :
    (c.splitRecursion a).Barren rest := by
  have hnone : baseBodies a (c.rulesOf a) = [] := by
    refine List.eq_nil_iff_forall_not_mem.mpr fun body hbody => ?_
    obtain ⟨hmem, hh⟩ := mem_baseBodies.mp hbody
    exact hh (hall body hmem)
  refine ⟨.nonterminal (c.splitFirst a),
    Components.mem_vars_splitRecursion.mpr (.inr (.inl rfl)), ?_, ?_⟩
  · exact fun hm => c.splitFirst_notMem a (hrest _ hm)
  · rw [Components.get?_splitRecursion,
      if_neg fun e => c.splitSecond_ne a (Symbol.nonterminal.inj e), if_pos rfl, hnone]

/-- Where something to be split has recursive alternatives only, the pass
leaves a variable without alternatives. -/
theorem Grammar.Closed.barren_splitAll {g : Grammar} (hg : g.Closed)
    (hall : ∃ a ∈ g.leftRecursive, ∀ body ∈ g.rulesOf a, body.head? = some a) :
    g.splitAll.Barren [] := by
  have hend := (@Grammar.Closed.splitAll_induction g hg (fun todo c => c.Barren todo ∨
    ∃ a ∈ todo, ∀ body ∈ g.rulesOf a, body.head? = some a) (.inr hall) ?_).2
  · rcases hend with hb | ⟨a, ha, -⟩
    · exact hb
    · exact absurd ha List.not_mem_nil
  · intro a rest c h hmem hrest hc
    rcases hc with hb | ⟨b, hb, hbodies⟩
    · exact .inl hb.splitRecursion
    · rcases List.mem_cons.mp hb with e | hb
      · rw [e, ← h.pending a List.mem_cons_self] at hbodies
        exact .inl (Components.barren_splitRecursion (fun b hb => h.kept b (hrest b hb)) hbodies)
      · exact .inr ⟨b, hb, hbodies⟩

end PredictiveParsing
