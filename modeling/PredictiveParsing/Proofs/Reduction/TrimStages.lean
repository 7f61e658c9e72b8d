import PredictiveParsing.Proofs.Reduction.PrefixRemoval
import PredictiveParsing.Proofs.Reduction.UselessRemoval
import PredictiveParsing.Proofs.Stabilize

/-!
# Later stages keep what earlier ones reached

Where a variable is split, or a prefix is factored, the new variables stand in
a body of a variable that was there, and every symbol that stood in a body of
it stands in one of theirs. So nothing becomes useless. No alternative of a
new variable starts with that variable, and a variable that is factored goes
on starting with what it started with, so that factoring brings no left
recursion back.
-/

namespace PredictiveParsing

/-- What was reached is reached after a split. -/
theorem Split.reaches {P Q : Productions} {n u v : String} (h : Split P Q n u v)
    (howner : ∀ a, ∀ body ∈ P a, a.isNonterminal = true) {start x : Symbol}
    (hx : Reaches P start x) : Reaches Q start x := by
  induction hx with
  | self => exact .self
  | @body a x body _ mem inside ih =>
    cases a with
    | epsilon => cases howner _ _ mem
    | terminal t => cases howner _ _ mem
    | nonterminal m =>
      by_cases hmn : m = n
      · subst hmn
        have whole : [Symbol.nonterminal u, .nonterminal v] ∈ Q (.nonterminal m) := by
          rw [h.whole]
          exact List.mem_cons_self
        by_cases hh : body.head? = some (.nonterminal m)
        · obtain ⟨rest, hrest⟩ := head?_eq_some_iff_exists.mp hh
          rw [hrest] at mem inside
          rcases List.mem_cons.mp inside with e | inside
          · rw [e]
            exact ih
          · have hsecond : Reaches Q start (.nonterminal v) := .body ih whole (by simp)
            refine .body hsecond ?_ (List.mem_append_left [.nonterminal v] inside)
            rw [h.tail]
            exact List.mem_append_left _ (mem_tailBodies.mpr ⟨rest, mem, rfl⟩)
        · have hfirst : Reaches Q start (.nonterminal u) := .body ih whole (by simp)
          refine .body hfirst ?_ inside
          rw [h.base]
          exact mem_baseBodies.mpr ⟨mem, hh⟩
      · have hmu : m ≠ u := fun e => absurd mem (by rw [e, h.first_empty]; exact List.not_mem_nil)
        have hmv : m ≠ v := fun e => absurd mem (by rw [e, h.second_empty]; exact List.not_mem_nil)
        refine .body ih ?_ inside
        rwa [h.other m hmn hmu hmv]

/-- What was reached is reached after a prefix is factored. -/
theorem Factored.reaches {P Q : Productions} {n new : String} {factor : Body}
    (h : Factored P Q n new factor) (howner : ∀ a, ∀ body ∈ P a, a.isNonterminal = true)
    {start x : Symbol} (hx : Reaches P start x) : Reaches Q start x := by
  induction hx with
  | self => exact .self
  | @body a x body _ mem inside ih =>
    cases a with
    | epsilon => cases howner _ _ mem
    | terminal t => cases howner _ _ mem
    | nonterminal m =>
      by_cases hmn : m = n
      · subst hmn
        have hwhole : factor ++ [.nonterminal new] ∈ Q (.nonterminal m) := by
          rw [h.whole]
          exact List.mem_append_right _ List.mem_cons_self
        have hnew : Reaches Q start (.nonterminal new) :=
          .body ih hwhole (List.mem_append_right _ List.mem_cons_self)
        obtain ⟨k, hk, other, hother, hin⟩ := h.exists_body mem inside
        rcases hk with e | e
        · exact .body ih (e ▸ hother) hin
        · exact .body hnew (e ▸ hother) hin
      · have hmnew : m ≠ new :=
          fun e => absurd mem (by rw [e, h.new_empty]; exact List.not_mem_nil)
        refine .body ih ?_ inside
        rwa [h.other m hmn hmnew]

namespace Components

/-- Only nonterminals have alternatives in closed components. -/
theorem Closed.isNonterminal_of_mem_rulesOf {c : Components} (h : c.Closed) :
    ∀ a, ∀ body ∈ c.rulesOf a, a.isNonterminal = true := by
  intro a body hb
  obtain ⟨bodies, hget, -⟩ := mem_rulesOf_iff.mp hb
  exact h.vars_nonterminal a (h.key_declared a bodies hget)

/-- A split keeps components trim. -/
theorem Trim.splitRecursion {c : Components} (h : c.Trim) (hc : c.Closed) {n : String}
    (hn : .nonterminal n ∈ c.vars) : (c.splitRecursion (.nonterminal n)).Trim := by
  have hs := hc.split hn
  have old : ∀ {x}, Reaches c.rulesOf c.start x →
      Reaches (c.splitRecursion (.nonterminal n)).rulesOf c.start x :=
    fun hx => hs.reaches hc.isNonterminal_of_mem_rulesOf hx
  refine ⟨hc.productive_splitRecursion hn h.productive, ?_, ?_, ?_⟩
  · intro a body hb x hx hk
    rcases mem_body_splitRecursion hb hx with e | e | e | ⟨owner, whole, hmem, hx⟩
    · rw [e] at hk
      cases hk
    · rw [e] at hk
      cases hk
    · rw [e] at hk
      cases hk
    · exact h.declared owner whole hmem x hx hk
  · intro a ha
    have hvar := old (h.vars_reached _ hn)
    have hwhole : [.nonterminal (c.splitFirst (.nonterminal n)),
        .nonterminal (c.splitSecond (.nonterminal n))] ∈
          (c.splitRecursion (.nonterminal n)).rulesOf (.nonterminal n) := by
      rw [hs.whole]
      exact List.mem_cons_self
    rcases mem_vars_splitRecursion.mp ha with e | e | ha
    · exact .body hvar hwhole (by simp [e])
    · exact .body hvar hwhole (by simp [e])
    · exact old (h.vars_reached a ha)
  · exact fun t ht => old (h.terminals_reached t ht)

/-- Factoring a prefix of an alternative keeps components trim. -/
theorem Trim.factorOut {c : Components} (h : c.Trim) (hc : c.Closed) {n : String}
    (hn : .nonterminal n ∈ c.vars) {factor : Body}
    (hfactor : ∃ body ∈ c.rulesOf (.nonterminal n), body.take factor.length = factor) :
    (c.factorOut (.nonterminal n, factor)).Trim := by
  have hf := hc.factored hn factor
  have old : ∀ {x}, Reaches c.rulesOf c.start x →
      Reaches (c.factorOut (.nonterminal n, factor)).rulesOf c.start x :=
    fun hx => hf.reaches hc.isNonterminal_of_mem_rulesOf hx
  refine ⟨hc.productive_factorOut hn hfactor h.productive, ?_, ?_, ?_⟩
  · intro a body hb x hx hk
    rcases mem_body_factorOut hfactor hb hx with e | e | ⟨owner, whole, hmem, hx⟩
    · rw [e] at hk
      cases hk
    · rw [e] at hk
      cases hk
    · exact h.declared owner whole hmem x hx hk
  · intro a ha
    rcases mem_vars_factorOut.mp ha with e | ha
    · have hwhole : factor ++ [a] ∈
          (c.factorOut (.nonterminal n, factor)).rulesOf (.nonterminal n) := by
        rw [hf.whole, e]
        exact List.mem_append_right _ List.mem_cons_self
      exact .body (old (h.vars_reached _ hn)) hwhole (List.mem_append_right _ List.mem_cons_self)
    · exact old (h.vars_reached a ha)
  · exact fun t ht => old (h.terminals_reached t ht)

/-- A factoring keeps closed components closed and trim. -/
theorem Trim.step {c next : Components} (h : c.Trim) (hc : c.Closed) (hs : FactorStep c next) :
    next.Closed ∧ next.Trim := by
  cases hs with
  | factor mem shared =>
    obtain ⟨n, rfl⟩ := hc.exists_name mem
    exact ⟨hc.factorOut mem shared.exists_body, h.factorOut hc mem shared.exists_body⟩

/-- So do any number of factorings. -/
theorem Trim.steps {c next : Components} (h : c.Trim) (hc : c.Closed) (hs : FactorSteps c next) :
    next.Closed ∧ next.Trim := by
  induction hs with
  | refl => exact ⟨hc, h⟩
  | tail _ hstep ih => exact ih.2.step ih.1 hstep

/-- No variable is an alternative of itself. -/
def Loopless (c : Components) : Prop := ∀ a, [a] ∉ c.rulesOf a

/-- A look through the table tells whether a variable is an alternative of
itself. -/
theorem loopless_of_all {c : Components}
    (h : (c.rules.entries.all fun entry =>
      entry.2.all fun body => decide (body ≠ [entry.1])) = true) :
    c.Loopless := fun a ha =>
  of_decide_eq_true (forall_mem_rulesOf_of_entries (fun a body => decide (body ≠ [a])) h a [a] ha)
    rfl

/-- A split makes no variable an alternative of itself. -/
theorem Loopless.splitRecursion {c : Components} (h : c.Loopless) (hc : c.Closed) (a : Symbol) :
    (c.splitRecursion a).Loopless := by
  intro b hb
  rw [rulesOf_splitRecursion] at hb
  split at hb
  · next e =>
    rw [List.mem_append, List.mem_singleton] at hb
    rcases hb with hb | hb
    · obtain ⟨rest, hrest, hbody⟩ := mem_tailBodies.mp hb
      have hlength := congrArg List.length hbody
      rw [List.length_append, List.length_singleton, List.length_singleton] at hlength
      rw [List.eq_nil_of_length_eq_zero (by omega : rest.length = 0)] at hrest
      exact h a hrest
    · rw [← e, epsilonBody, List.singleton_inj] at hb
      cases hb
  · split at hb
    · next e =>
      rw [← e] at hb
      exact hc.notMem_body (c.splitFirst_notMem a) (mem_baseBodies.mp hb).1 List.mem_cons_self
    · split at hb
      · have hlength := congrArg List.length (List.mem_singleton.mp hb)
        cases hlength
      · exact h b hb

/-- No alternative starts with the variable it belongs to. -/
def Straight (c : Components) : Prop := ∀ a, ∀ body ∈ c.rulesOf a, body.head? ≠ some a

/-- Factoring a shared prefix makes no alternative start with its variable. -/
theorem Straight.factorOut {c : Components} (h : c.Straight) (hc : c.Closed) {a : Symbol}
    {factor : Body} (hs : SharedPrefix factor (c.rulesOf a)) :
    (c.factorOut (a, factor)).Straight := by
  intro b body hb hh
  rw [rulesOf_factorOut] at hb
  split at hb
  · next e =>
    obtain ⟨whole, hmem, -, hbody⟩ := mem_suffixBodies.mp hb
    rw [hbody] at hh
    rcases mem_of_mem_suffixBody (List.mem_of_head? hh) with hin | hepsilon
    · exact hc.notMem_body (c.factorName_notMem a) hmem (e ▸ hin)
    · rw [← e] at hepsilon
      cases hepsilon
  · split at hb
    · next e =>
      rw [← e] at hh
      rw [List.mem_append, List.mem_singleton] at hb
      rcases hb with hb | hb
      · exact h a body (mem_otherBodies.mp hb).1 hh
      · -- the alternative starts like those that have the prefix
        obtain ⟨whole, hmem, htake⟩ := hs.exists_body
        rw [hb, List.head?_append_of_ne_nil _ hs.ne_nil] at hh
        refine h a whole hmem ?_
        rw [eq_append_drop htake, List.head?_append_of_ne_nil _ hs.ne_nil]
        exact hh
    · exact h b body hb hh

/-- What holds between the removal of left recursion and the end of the
reduction. -/
structure Neat (c : Components) : Prop where
  /-- The components are closed. -/
  closed : c.Closed
  /-- They are trim. -/
  trim : c.Trim
  /-- Nothing is recursive. -/
  straight : c.Straight

/-- A factoring keeps what holds. -/
theorem Neat.step {c next : Components} (h : c.Neat) (hs : FactorStep c next) : next.Neat := by
  obtain ⟨hclosed, htrim⟩ := h.trim.step h.closed hs
  cases hs with
  | factor mem shared => exact ⟨hclosed, htrim, h.straight.factorOut h.closed shared⟩

/-- Any number of factorings keep what holds. -/
theorem Neat.steps {c next : Components} (h : c.Neat) (hs : FactorSteps c next) : next.Neat := by
  induction hs with
  | refl => exact h
  | tail _ hstep ih => exact ih.step hstep

/-- Factorings leave the start symbol and the terminals alone. -/
theorem FactorSteps.unchanged {c next : Components} (hs : FactorSteps c next) :
    next.start = c.start ∧ next.terminals = c.terminals := by
  induction hs with
  | refl => exact ⟨rfl, rfl⟩
  | tail _ hstep ih =>
    cases hstep
    exact ih

end Components

namespace Grammar

/-- One pass of splitting leaves the start symbol and the terminals alone. -/
theorem splitAll_unchanged (g : Grammar) :
    g.splitAll.start = g.start ∧ g.splitAll.terminals = g.terminals := by
  have keep : ∀ c : Components, c.start = g.start ∧ c.terminals = g.terminals →
      ∀ a ∈ g.leftRecursive, (c.splitRecursion a).start = g.start ∧
        (c.splitRecursion a).terminals = g.terminals :=
    fun _ h _ _ => h
  exact foldl_keeps keep g.toComponents ⟨rfl, rfl⟩

/-- A whole pass of splitting keeps a grammar trim. -/
theorem Closed.trim_splitAll {g : Grammar} (hg : g.Closed) (h : g.Trim) : g.splitAll.Trim := by
  refine (@Closed.splitAll_induction g hg (fun _ c => c.Trim) h fun a rest c hs ha _ hc => ?_).2
  obtain ⟨n, rfl⟩ := hs.closed.exists_name (hs.kept a ha)
  exact hc.splitRecursion hs.closed (hs.kept _ ha)

/-- A whole pass of splitting makes a trim grammar neat, if no variable is an
alternative of itself. -/
theorem Closed.neat_splitAll {g : Grammar} (hg : g.Closed) (h : g.Trim) (hl : g.Loopless) :
    g.splitAll.Neat := by
  obtain ⟨hpass, hloop⟩ := @Closed.splitAll_induction g hg (fun _ c => c.Loopless) hl
    fun a rest c hs _ _ hc => hc.splitRecursion hs.closed a
  refine ⟨hpass.closed, hg.trim_splitAll h, fun a body hb hh => ?_⟩
  obtain ⟨rest, rfl⟩ := head?_eq_some_iff_exists.mp hh
  obtain ⟨bodies, hget, -⟩ := Components.mem_rulesOf_iff.mp hb
  have hr := hpass.settled a (hpass.closed.key_declared a bodies hget) List.not_mem_nil _ hb
  cases rest with
  | nil => exact hloop a hb
  | cons y rest => exact beq_eq_false_iff_ne.mp hr rfl

/-- A neat grammar has no left recursion. -/
theorem leftRecursive_eq_nil_of_neat {g : Grammar} (h : g.Neat) : g.leftRecursive = [] :=
  leftRecursive_eq_nil fun a _ body hb =>
    recursesOn_eq_false fun hh => absurd hh (h.straight a body hb)

end Grammar

end PredictiveParsing
