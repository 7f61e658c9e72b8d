import Mathlib.Data.List.Nodup
import PredictiveParsing.Proofs.Grammar.Validity

/-!
# New variables are new

The name made for a new variable is not taken: among more candidates than
there are taken names one is free. A new variable beside an old one keeps
the components valid, since its alternatives are checked where it is added
and the display order stays a list of the variables. In closed components a
nonterminal that is no variable occurs nowhere.
-/

namespace PredictiveParsing

/-- A name with apostrophes added. -/
def primed : Nat → String → String
  | 0, name => name
  | count + 1, name => primed count (name ++ "'")

/-- Every apostrophe makes a name longer. -/
theorem length_primed (count : Nat) (name : String) :
    (primed count name).length = name.length + count := by
  induction count generalizing name with
  | zero => rfl
  | succ count ih =>
    have hone : "'".length = 1 := rfl
    rw [primed, ih, String.length_append, hone]
    omega

/-- Different numbers of apostrophes give different names. -/
theorem primed_injective {i j : Nat} {name : String} (h : primed i name = primed j name) :
    i = j := by
  have hl := congrArg String.length h
  rw [length_primed, length_primed] at hl
  omega

/-- The search passes over taken names only, and ends at a free name or at
its limit. -/
theorem primeUntilFree_eq_primed (taken : List String) (count : Nat) (name : String) :
    ∃ k ≤ count, primeUntilFree taken count name = primed k name ∧
      (∀ j < k, primed j name ∈ taken) ∧ (primed k name ∈ taken → k = count) := by
  induction count generalizing name with
  | zero => exact ⟨0, Nat.le_refl _, rfl, fun j hj => absurd hj (Nat.not_lt_zero j), fun _ => rfl⟩
  | succ count ih =>
    rw [primeUntilFree]
    by_cases ht : name ∈ taken
    · rw [if_pos ht]
      obtain ⟨k, hk, heq, hbefore, hlast⟩ := ih (name ++ "'")
      refine ⟨k + 1, by omega, heq, fun j hj => ?_, fun h => by rw [hlast h]⟩
      cases j with
      | zero => exact ht
      | succ j => exact hbefore j (by omega)
    · rw [if_neg ht]
      exact ⟨0, Nat.zero_le _, rfl, fun j hj => absurd hj (Nat.not_lt_zero j),
        fun h => absurd h ht⟩

/-- The name made from a base is not among the taken ones. -/
theorem freshName_notMem (base : String) (taken : List String) : freshName base taken ∉ taken := by
  intro hmem
  obtain ⟨k, -, heq, hbefore, hlast⟩ :=
    primeUntilFree_eq_primed taken taken.length (base ++ "'")
  rw [freshName, heq] at hmem
  have hk := hlast hmem
  -- all candidates are taken, and there is one more of them than of taken names
  have hsub : (List.range (k + 1)).map (primed · (base ++ "'")) ⊆ taken := by
    intro name hname
    obtain ⟨j, hj, rfl⟩ := List.mem_map.mp hname
    rcases Nat.lt_succ_iff_lt_or_eq.mp (List.mem_range.mp hj) with hlt | rfl
    · exact hbefore j hlt
    · exact hmem
  have hnodup : ((List.range (k + 1)).map (primed · (base ++ "'"))).Nodup :=
    List.Nodup.map_on (fun i _ j _ h => primed_injective h) List.nodup_range
  have hlen := (hnodup.subperm hsub).length_le
  rw [List.length_map, List.length_range] at hlen
  omega

/-- Inserting at a place rearranges the list with the new member. -/
theorem insertAt_perm (place : Nat) (a : Symbol) (l : List Symbol) :
    (insertAt place a l).Perm (a :: l) := by
  have h : (insertAt place a l).Perm (a :: (l.take place ++ l.drop place)) := List.perm_middle
  rwa [List.take_append_drop] at h

namespace Components

/-- Components are closed when variables are nonterminals, declared
terminals are terminals, and keys and the nonterminals of bodies are
variables. -/
structure Closed (c : Components) : Prop where
  /-- Variables are nonterminals. -/
  vars_nonterminal : ∀ a ∈ c.vars, a.isNonterminal = true
  /-- Declared terminals are terminals. -/
  terminals_terminal : ∀ a ∈ c.terminals, a.isTerminal = true
  /-- Only variables have alternatives. -/
  key_declared : ∀ a bodies, c.rules.get? a = some bodies → a ∈ c.vars
  /-- The nonterminals of bodies are variables. -/
  body_declared : ∀ a, ∀ body ∈ c.rulesOf a, ∀ x ∈ body, x.isNonterminal = true → x ∈ c.vars

/-- A nonterminal that is no variable has no alternatives. -/
theorem Closed.rulesOf_eq_nil {c : Components} (h : c.Closed) {a : Symbol} (ha : a ∉ c.vars) :
    c.rulesOf a = [] := by
  unfold rulesOf
  cases hget : c.rules.get? a with
  | none => rfl
  | some bodies => exact absurd (h.key_declared a bodies hget) ha

/-- A nonterminal that is no variable stands in no body. -/
theorem Closed.notMem_body {c : Components} (h : c.Closed) {n : String}
    (hn : .nonterminal n ∉ c.vars) {a : Symbol} {body : Body} (hb : body ∈ c.rulesOf a) :
    .nonterminal n ∉ body :=
  fun hm => hn (h.body_declared a body hb _ hm rfl)

/-- A variable of closed components has a name. -/
theorem Closed.exists_name {c : Components} (h : c.Closed) {a : Symbol} (ha : a ∈ c.vars) :
    ∃ n, a = .nonterminal n :=
  Symbol.isNonterminal_iff.mp (h.vars_nonterminal a ha)

/-- A nonterminal whose name no variable bears is no variable. -/
theorem notMem_vars_of_name {c : Components} {n : String} (h : n ∉ c.usedNames) :
    .nonterminal n ∉ c.vars :=
  fun hm => h (List.mem_map_of_mem (f := Symbol.name) (SymbolSet.mem_members.mpr hm))

@[simp] theorem rulesOf_setRules (c : Components) (a b : Symbol) (bodies : List Body) :
    (c.setRules a bodies).rulesOf b = if a = b then bodies else c.rulesOf b := by
  unfold rulesOf setRules
  dsimp only
  rw [SymbolTable.get?_set]
  split <;> rfl

@[simp] theorem rulesOf_addVariable (c : Components) (base new b : Symbol) (bodies : List Body) :
    (c.addVariable base new bodies).rulesOf b = if new = b then bodies else c.rulesOf b := by
  unfold rulesOf addVariable
  dsimp only
  rw [SymbolTable.get?_set]
  split <;> rfl

@[simp] theorem vars_setRules (c : Components) (a : Symbol) (bodies : List Body) :
    (c.setRules a bodies).vars = c.vars := rfl

@[simp] theorem mem_vars_addVariable {c : Components} {base new a : Symbol} {bodies : List Body} :
    a ∈ (c.addVariable base new bodies).vars ↔ a = new ∨ a ∈ c.vars :=
  SymbolSet.mem_insert

/-- Other alternatives for a variable are fine if they are. -/
theorem Valid.setRules {c : Components} (h : c.Valid) {a : Symbol} (ha : a ∈ c.vars)
    {bodies : List Body} (hne : bodies ≠ []) (hp : ∀ body ∈ bodies, Body.Proper body) :
    (c.setRules a bodies).Valid where
  start_mem := h.start_mem
  key_mem := by
    intro b found hb
    unfold Components.setRules at hb
    dsimp only at hb
    rw [SymbolTable.get?_set] at hb
    split at hb
    · next e => exact e ▸ ha
    · exact h.key_mem b found hb
  bodies_ne_nil := by
    intro b found hb
    unfold Components.setRules at hb
    dsimp only at hb
    rw [SymbolTable.get?_set] at hb
    split at hb
    · exact Option.some.inj hb ▸ hne
    · exact h.bodies_ne_nil b found hb
  proper := by
    intro b body hb
    rw [rulesOf_setRules] at hb
    split at hb
    · exact hp body hb
    · exact h.proper b body hb
  order_lists := h.order_lists

/-- A list of the variables stays one where a new variable is placed and
declared. -/
theorem listsVariables_placeFresh {vars : SymbolSet} {order : List Symbol} {base new : Symbol}
    (hnew : new ∉ vars) (h : listsVariables vars order = true) :
    listsVariables (vars.insert new) (placeFresh base new order) = true := by
  obtain ⟨hn, hm⟩ := listsVariables_iff.mp h
  have hp : (placeFresh base new order).Perm (new :: order) := insertAt_perm _ _ _
  refine listsVariables_iff.mpr ⟨?_, fun a => ?_⟩
  · exact hp.nodup_iff.mpr (List.nodup_cons.mpr ⟨fun hmem => hnew ((hm new).mp hmem), hn⟩)
  · rw [hp.mem_iff, List.mem_cons, SymbolSet.mem_insert, hm]

/-- A new variable with alternatives is fine if they are. -/
theorem Valid.addVariable {c : Components} (h : c.Valid) {base new : Symbol} (hnew : new ∉ c.vars)
    {bodies : List Body} (hne : bodies ≠ []) (hp : ∀ body ∈ bodies, Body.Proper body) :
    (c.addVariable base new bodies).Valid where
  start_mem := mem_vars_addVariable.mpr (.inr h.start_mem)
  key_mem := by
    intro b found hb
    unfold Components.addVariable at hb
    dsimp only at hb
    rw [SymbolTable.get?_set] at hb
    rw [mem_vars_addVariable]
    split at hb
    · next e => exact .inl e.symm
    · exact .inr (h.key_mem b found hb)
  bodies_ne_nil := by
    intro b found hb
    unfold Components.addVariable at hb
    dsimp only at hb
    rw [SymbolTable.get?_set] at hb
    split at hb
    · exact Option.some.inj hb ▸ hne
    · exact h.bodies_ne_nil b found hb
  proper := by
    intro b body hb
    rw [rulesOf_addVariable] at hb
    split at hb
    · exact hp body hb
    · exact h.proper b body hb
  order_lists := by
    intro order ho
    obtain ⟨old, hold, rfl⟩ := Option.map_eq_some_iff.mp ho
    exact listsVariables_placeFresh hnew (h.order_lists old hold)

end Components

/-- A closed grammar has closed components. -/
theorem Grammar.Closed.components {g : Grammar} (h : g.Closed) : g.toComponents.Closed where
  vars_nonterminal := h.vars_nonterminal
  terminals_terminal := h.terminals_terminal
  key_declared := g.valid.key_mem
  body_declared := h.body_declared

/-- A grammar with closed components is closed. -/
theorem Components.Closed.grammar {g : Grammar} (h : g.toComponents.Closed) : g.Closed where
  vars_nonterminal := h.vars_nonterminal
  terminals_terminal := h.terminals_terminal
  body_declared := h.body_declared

/-- Valid components are accepted as they are. -/
theorem Components.Valid.check_eq_ok {c : Components} (h : c.Valid) :
    ∃ g : Grammar, c.check = .ok g ∧ g.toComponents = c := by
  obtain ⟨g, hg⟩ := check_isOk_iff.mpr (faults_eq_nil_iff.mpr h)
  exact ⟨g, hg, Components.check_eq_ok hg⟩

end PredictiveParsing
