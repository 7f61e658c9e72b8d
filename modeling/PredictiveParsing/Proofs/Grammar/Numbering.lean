import PredictiveParsing.Proofs.Derivation
import PredictiveParsing.Proofs.Grammar.Validity

/-!
# Rules by their numbers

The rules are numbered through the variables in display order. The number
that is computed for an alternative from the first number of its variable
leads back to that variable and that alternative. Numbers applied one after
the other to the leftmost variable of a form are a derivation.
-/

namespace PredictiveParsing.Grammar

/-- The rule that has a number in the list of numbered rules. -/
def ruleNumbered? (g : Grammar) (k : Nat) : Option (Symbol × Body) :=
  (g.numberedRules.find? fun rule => rule.1 == k).map Prod.snd

/-- A form with its leftmost variable replaced by a rule of that variable. -/
def rewriteLeftmost (g : Grammar) (rule : Symbol × Body) : List Symbol → Option (List Symbol)
  | [] => none
  | x :: rest =>
    if x ∈ g.vars then
      if x = rule.1 then some (Body.spelled rule.2 ++ rest) else none
    else (rewriteLeftmost g rule rest).map (x :: ·)

/-- The form that comes out of a form when rules are applied by their
numbers, each to the leftmost variable; nothing if a rule does not apply. -/
def replay (g : Grammar) : List Nat → List Symbol → Option (List Symbol)
  | [], form => some form
  | k :: numbers, form =>
    (g.ruleNumbered? k).bind fun rule => (g.rewriteLeftmost rule form).bind (replay g numbers)

variable {g : Grammar}

/-- Among the alternatives of one variable the numbers count on. -/
theorem find?_numberBodies {a : Symbol} {n i : Nat} {bodies : List Body} {body : Body}
    (h : bodies[i]? = some body) :
    (numberBodies a n bodies).find? (fun rule => rule.1 == n + i) = some (n + i, a, body) := by
  induction bodies generalizing n i with
  | nil => cases h
  | cons first rest ih =>
    rw [numberBodies]
    cases i with
    | zero =>
      have hb : first = body := Option.some.inj h
      rw [List.find?_cons_of_pos (by simp), hb, Nat.add_zero]
    | succ i =>
      have hn : n + (i + 1) = n + 1 + i := by omega
      rw [List.find?_cons_of_neg (by simp), hn]
      exact ih h

/-- Larger numbers are not found among the alternatives of a variable. -/
theorem find?_numberBodies_of_le {a : Symbol} {n k : Nat} {bodies : List Body}
    (h : n + bodies.length ≤ k) :
    (numberBodies a n bodies).find? (fun rule => rule.1 == k) = none := by
  induction bodies generalizing n with
  | nil => rfl
  | cons first rest ih =>
    rw [List.length_cons] at h
    have hne : n ≠ k := by omega
    rw [numberBodies, List.find?_cons_of_neg (by simpa using hne)]
    exact ih (by omega)

/-- The first numbers of listed variables do not lie below the start of the
count, and with an offset they lead to the alternatives. -/
theorem find?_numberedFrom {a : Symbol} {n m : Nat} {order : List Symbol}
    (h : SymbolTable.find (g.firstNumbersFrom n order) a = some m) :
    n ≤ m ∧ ∀ i body, (g.rulesOf a)[i]? = some body →
      (g.numberedFrom n order).find? (fun rule => rule.1 == m + i) = some (m + i, a, body) := by
  induction order generalizing n with
  | nil => cases h
  | cons b rest ih =>
    rw [firstNumbersFrom, SymbolTable.find] at h
    split at h
    · next e =>
      have hm : n = m := Option.some.inj h
      rw [← hm, e]
      refine ⟨Nat.le_refl n, fun i body hi => ?_⟩
      rw [numberedFrom, List.find?_append, find?_numberBodies hi, Option.some_or]
    · next hne =>
      obtain ⟨hle, hfind⟩ := ih h
      refine ⟨by omega, fun i body hi => ?_⟩
      have hlarge : n + (g.rulesOf b).length ≤ m + i := by omega
      rw [numberedFrom, List.find?_append, find?_numberBodies_of_le hlarge, Option.none_or]
      exact hfind i body hi

/-- The variables with a first number are the listed ones. -/
theorem map_fst_firstNumbersFrom (n : Nat) (order : List Symbol) :
    (g.firstNumbersFrom n order).map Prod.fst = order := by
  induction order generalizing n with
  | nil => rfl
  | cons b rest ih => rw [firstNumbersFrom, List.map_cons, ih]

/-- Every variable has the number of its first rule. -/
theorem isSome_firstNumber? {a : Symbol} (h : a ∈ g.vars) : (g.firstNumber? a).isSome = true := by
  rw [firstNumber?, SymbolTable.find_isSome_iff, firstNumbers, map_fst_firstNumbersFrom]
  exact mem_displayOrder.mpr h

/-- The number computed for an alternative is its number. -/
theorem ruleNumbered?_firstNumber {a : Symbol} {i : Nat} {body : Body}
    (h : (g.rulesOf a)[i]? = some body) :
    g.ruleNumbered? ((g.firstNumber? a).getD 0 + i) = some (a, body) := by
  have hvar := mem_vars_of_mem_rulesOf (List.mem_of_getElem? h)
  obtain ⟨m, hm⟩ := Option.isSome_iff_exists.mp (isSome_firstNumber? hvar)
  have hfind := (find?_numberedFrom hm).2 i body h
  rw [hm, Option.getD_some, ruleNumbered?, numberedRules, hfind, Option.map_some]

/-- A rule with a number is an alternative of its variable. -/
theorem mem_rulesOf_of_ruleNumbered? {k : Nat} {rule : Symbol × Body}
    (h : g.ruleNumbered? k = some rule) : rule.2 ∈ g.rulesOf rule.1 := by
  have inBodies : ∀ (a : Symbol) (bodies : List Body) (n : Nat),
      ∀ r ∈ numberBodies a n bodies, r.2.1 = a ∧ r.2.2 ∈ bodies := by
    intro a bodies
    induction bodies with
    | nil => exact fun n r hr => absurd hr List.not_mem_nil
    | cons body rest ih =>
      intro n r hr
      rcases List.mem_cons.mp hr with e | hr
      · rw [e]
        exact ⟨rfl, List.mem_cons_self⟩
      · exact ⟨(ih (n + 1) r hr).1, List.mem_cons_of_mem _ (ih (n + 1) r hr).2⟩
  have inOrder : ∀ (order : List Symbol) (n : Nat),
      ∀ r ∈ g.numberedFrom n order, r.2.2 ∈ g.rulesOf r.2.1 := by
    intro order
    induction order with
    | nil => exact fun n r hr => absurd hr List.not_mem_nil
    | cons a rest ih =>
      intro n r hr
      rcases List.mem_append.mp hr with hr | hr
      · have := inBodies a _ n r hr
        rw [this.1]
        exact this.2
      · exact ih _ r hr
  obtain ⟨r, hr, hrule⟩ := Option.map_eq_some_iff.mp h
  rw [← hrule]
  exact inOrder _ 1 r (List.mem_of_find?_eq_some hr)

/-- The leftmost variable stands behind symbols that are no variables. -/
theorem rewriteLeftmost_append {a : Symbol} {body : Body} {left right : List Symbol}
    (hleft : ∀ x ∈ left, x ∉ g.vars) (ha : a ∈ g.vars) :
    g.rewriteLeftmost (a, body) (left ++ a :: right) =
      some (left ++ (Body.spelled body ++ right)) := by
  induction left with
  | nil => rw [List.nil_append, rewriteLeftmost, if_pos ha, if_pos rfl, List.nil_append]
  | cons x rest ih =>
    have hx : x ∉ g.vars := hleft x List.mem_cons_self
    have hrest := ih fun y hy => hleft y (List.mem_cons_of_mem _ hy)
    rw [List.cons_append, rewriteLeftmost, if_neg hx, hrest, Option.map_some, List.cons_append]

/-- Numbers are replayed one list after the other. -/
theorem replay_append {first second : List Nat} {form : List Symbol} :
    g.replay (first ++ second) form = (g.replay first form).bind (g.replay second) := by
  induction first generalizing form with
  | nil => rfl
  | cons k rest ih =>
    rw [List.cons_append, replay, replay]
    cases g.ruleNumbered? k with
    | none => rfl
    | some rule =>
      rw [Option.bind_some, Option.bind_some]
      cases g.rewriteLeftmost rule form with
      | none => rfl
      | some next =>
        rw [Option.bind_some, Option.bind_some]
        exact ih

/-- One more number is applied to the form that was reached. -/
theorem replay_concat {numbers : List Nat} {form left right : List Symbol} {k : Nat} {a : Symbol}
    {body : Body} (h : g.replay numbers form = some (left ++ a :: right))
    (hleft : ∀ x ∈ left, x ∉ g.vars) (hk : g.ruleNumbered? k = some (a, body)) :
    g.replay (numbers ++ [k]) form = some (left ++ (Body.spelled body ++ right)) := by
  have ha : a ∈ g.vars := mem_vars_of_mem_rulesOf (mem_rulesOf_of_ruleNumbered? hk)
  rw [replay_append, h, Option.bind_some, replay, hk, Option.bind_some,
    rewriteLeftmost_append hleft ha, Option.bind_some, replay]

/-- A rule applied to the leftmost variable is a step of a derivation. -/
theorem Closed.rewrites_of_rewriteLeftmost (hg : g.Closed) {rule : Symbol × Body}
    {form next : List Symbol} (hr : rule.2 ∈ g.rulesOf rule.1)
    (h : g.rewriteLeftmost rule form = some next) : Rewrites g.rulesOf form next := by
  induction form generalizing next with
  | nil => cases h
  | cons x rest ih =>
    rw [rewriteLeftmost] at h
    split at h
    · next hx =>
      split at h
      · next e =>
        have hnext := Option.some.inj h
        cases x with
        | epsilon => exact absurd (hg.vars_nonterminal _ hx) Bool.false_ne_true
        | terminal t => exact absurd (hg.vars_nonterminal _ hx) Bool.false_ne_true
        | nonterminal n =>
          rw [← e] at hr
          have step := Rewrites.apply [] rest hr
          rw [← hnext]
          exact step
      · cases h
    · obtain ⟨tail, htail, rfl⟩ := Option.map_eq_some_iff.mp h
      cases ih htail with
      | apply left right mem => exact .apply (x :: left) right mem

/-- What is replayed is derived. -/
theorem Closed.derives_of_replay (hg : g.Closed) {numbers : List Nat} {form last : List Symbol}
    (h : g.replay numbers form = some last) : Derives g.rulesOf form last := by
  induction numbers generalizing form with
  | nil =>
    have e : form = last := Option.some.inj h
    rw [e]
    exact .refl
  | cons k rest ih =>
    obtain ⟨rule, hk, h⟩ := Option.bind_eq_some_iff.mp h
    obtain ⟨next, hnext, h⟩ := Option.bind_eq_some_iff.mp h
    have step := hg.rewrites_of_rewriteLeftmost (mem_rulesOf_of_ruleNumbered? hk) hnext
    exact .head step (ih h)

end PredictiveParsing.Grammar
