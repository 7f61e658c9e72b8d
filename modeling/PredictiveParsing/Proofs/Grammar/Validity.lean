import PredictiveParsing.Proofs.Derivation
import PredictiveParsing.Proofs.SymbolTable
import PredictiveParsing.Reduction.FreshVariables

/-!
# What the check of a grammar ensures

The check lists faults; here its clauses stand as properties of the
components, and having no fault is the same as having all of them. A grammar
carries the proof of its check, so that every grammar has these properties.
From them follows that the display order names every variable exactly once.
-/

namespace PredictiveParsing

/-- A body has symbols, and the empty string stands in it only alone. -/
structure Body.Proper (body : Body) : Prop where
  /-- There is a symbol. -/
  ne_nil : body ≠ []
  /-- The empty string is the whole body. -/
  epsilon_alone : .epsilon ∈ body → body = epsilonBody

/-- The empty string alone is a proper body. -/
theorem proper_epsilonBody : Body.Proper epsilonBody := ⟨List.cons_ne_nil _ _, fun _ => rfl⟩

namespace Components

/-- The clauses of the check. -/
structure Valid (c : Components) : Prop where
  /-- The start symbol is a variable. -/
  start_mem : c.start ∈ c.vars
  /-- Only variables have alternatives. -/
  key_mem : ∀ a bodies, c.rules.get? a = some bodies → a ∈ c.vars
  /-- A variable in the rule table has an alternative. -/
  bodies_ne_nil : ∀ a bodies, c.rules.get? a = some bodies → bodies ≠ []
  /-- Bodies are proper. -/
  proper : ∀ a, ∀ body ∈ c.rulesOf a, Body.Proper body
  /-- A given display order lists the variables. -/
  order_lists : ∀ order, c.order = some order → listsVariables c.vars order = true

/-- The alternatives of a symbol are those of its entry. -/
theorem mem_rulesOf_iff {c : Components} {a : Symbol} {body : Body} :
    body ∈ c.rulesOf a ↔ ∃ bodies, c.rules.get? a = some bodies ∧ body ∈ bodies := by
  unfold rulesOf
  cases h : c.rules.get? a with
  | none => simp
  | some bodies => simp

/-- A variable with an alternative has an entry. -/
theorem get?_eq_some_of_mem_rulesOf {c : Components} {a : Symbol} {body : Body}
    (h : body ∈ c.rulesOf a) : c.rules.get? a = some (c.rulesOf a) := by
  obtain ⟨bodies, hget, -⟩ := mem_rulesOf_iff.mp h
  rw [rulesOf, hget]
  rfl

/-- The alternatives of a symbol are those that the table holds for it. -/
theorem mem_rulesOf_iff_mem_entries {c : Components} {a : Symbol} {body : Body} :
    body ∈ c.rulesOf a ↔ ∃ bodies, (a, bodies) ∈ c.rules.entries ∧ body ∈ bodies := by
  constructor
  · intro h
    obtain ⟨bodies, hget, hmem⟩ := mem_rulesOf_iff.mp h
    exact ⟨bodies, SymbolTable.mem_entries_iff.mpr hget, hmem⟩
  · intro ⟨bodies, hentry, hmem⟩
    exact mem_rulesOf_iff.mpr ⟨bodies, SymbolTable.mem_entries_iff.mp hentry, hmem⟩

/-- A test of variables and bodies that the whole table passes holds of every
alternative. -/
theorem forall_mem_rulesOf_of_entries {c : Components} (test : Symbol → Body → Bool)
    (h : (c.rules.entries.all fun entry => entry.2.all (test entry.1)) = true) :
    ∀ a, ∀ body ∈ c.rulesOf a, test a body = true := by
  intro a body hbody
  obtain ⟨bodies, hentry, hmem⟩ := mem_rulesOf_iff_mem_entries.mp hbody
  exact List.all_eq_true.mp (List.all_eq_true.mp h (a, bodies) hentry) body hmem

/-- So does a test of bodies alone. -/
theorem forall_mem_rulesOf_of_all {c : Components} {test : Body → Bool}
    (h : (c.rules.entries.all fun entry => entry.2.all test) = true) :
    ∀ a, ∀ body ∈ c.rulesOf a, test body = true :=
  forall_mem_rulesOf_of_entries (fun _ => test) h

/-- A body passes the check if it is proper. -/
theorem bodyFaults_eq_nil_iff {key : Symbol} {body : Body} :
    bodyFaults key body = [] ↔ Body.Proper body := by
  have split : Body.Proper body ↔ body ≠ [] ∧ (.epsilon ∈ body → body = epsilonBody) :=
    ⟨fun h => ⟨h.ne_nil, h.epsilon_alone⟩, fun h => ⟨h.1, h.2⟩⟩
  rw [split]
  match body with
  | [] => simp [bodyFaults]
  | [a] => simp [bodyFaults, epsilonBody, eq_comm]
  | a :: b :: rest => simp [bodyFaults, epsilonBody]

/-- An entry passes the check if its key is a variable, there are
alternatives, and they pass. -/
theorem entryFaults_eq_nil_iff {vars : SymbolSet} {key : Symbol} {bodies : List Body} :
    entryFaults vars key bodies = [] ↔
      key ∈ vars ∧ bodies ≠ [] ∧ ∀ body ∈ bodies, bodyFaults key body = [] := by
  unfold entryFaults
  by_cases hk : key ∈ vars
  · by_cases hb : bodies = []
    · simp [hk, hb]
    · simp [hk, hb]
  · simp [hk]

/-- The check finds nothing exactly if all clauses hold. -/
theorem faults_eq_nil_iff {c : Components} : c.faults = [] ↔ c.Valid := by
  unfold faults
  rw [List.append_eq_nil_iff, List.append_eq_nil_iff, List.flatMap_eq_nil_iff]
  constructor
  · rintro ⟨⟨hs, he⟩, ho⟩
    have entry : ∀ a bodies, c.rules.get? a = some bodies →
        entryFaults c.vars a bodies = [] := fun a bodies h =>
      he (a, bodies) (SymbolTable.mem_entries_iff.mpr h)
    have body : ∀ a, ∀ body ∈ c.rulesOf a, bodyFaults a body = [] := by
      intro a body hb
      obtain ⟨bodies, hget, hmem⟩ := mem_rulesOf_iff.mp hb
      exact (entryFaults_eq_nil_iff.mp (entry a bodies hget)).2.2 body hmem
    refine ⟨?_, fun a bodies h => (entryFaults_eq_nil_iff.mp (entry a bodies h)).1,
      fun a bodies h => (entryFaults_eq_nil_iff.mp (entry a bodies h)).2.1,
      fun a b hb => bodyFaults_eq_nil_iff.mp (body a b hb), ?_⟩
    · by_contra hn
      rw [if_neg hn] at hs
      cases hs
    · intro order horder
      rw [horder, orderFaults] at ho
      by_contra hn
      rw [if_neg hn] at ho
      cases ho
  · intro h
    refine ⟨⟨if_pos h.start_mem, ?_⟩, ?_⟩
    · rintro ⟨a, bodies⟩ hmem
      have hget := SymbolTable.mem_entries_iff.mp hmem
      refine entryFaults_eq_nil_iff.mpr ⟨h.key_mem a bodies hget, h.bodies_ne_nil a bodies hget, ?_⟩
      intro body hb
      exact bodyFaults_eq_nil_iff.mpr (h.proper a body (mem_rulesOf_iff.mpr ⟨bodies, hget, hb⟩))
    · cases horder : c.order with
      | none => rfl
      | some order => rw [orderFaults, if_pos (h.order_lists order horder)]

/-- A list is accepted as a display order if it names every variable exactly
once. -/
theorem listsVariables_iff {vars : SymbolSet} {order : List Symbol} :
    listsVariables vars order = true ↔ order.Nodup ∧ ∀ a, a ∈ order ↔ a ∈ vars := by
  unfold listsVariables
  rw [Bool.and_eq_true, beq_iff_eq, beq_iff_eq]
  constructor
  · rintro ⟨hl, hs⟩
    have hm : ∀ a, a ∈ order ↔ a ∈ vars := fun a => by rw [← hs, SymbolSet.mem_ofList]
    have hsub := vars.nodup_members.subperm fun a ha => (hm a).mpr ha
    have hp := hsub.perm_of_length_le (Nat.le_of_eq hl)
    exact ⟨hp.nodup_iff.mp vars.nodup_members, hm⟩
  · rintro ⟨hn, hm⟩
    refine ⟨?_, SymbolSet.ext fun a => by rw [SymbolSet.mem_ofList, hm]⟩
    have hp : order.Perm vars.members := (List.perm_ext_iff_of_nodup hn vars.nodup_members).mpr hm
    exact hp.length_eq

end Components

namespace Grammar

/-- A grammar has passed the check. -/
theorem valid (g : Grammar) : g.toComponents.Valid := Components.faults_eq_nil_iff.mp g.sound

/-- Only variables have alternatives. -/
theorem mem_vars_of_mem_rulesOf {g : Grammar} {a : Symbol} {body : Body}
    (h : body ∈ g.rulesOf a) : a ∈ g.vars := by
  obtain ⟨bodies, hget, -⟩ := Components.mem_rulesOf_iff.mp h
  exact g.valid.key_mem a bodies hget

/-- A body that holds the empty string is the empty string. -/
theorem epsilon_notMem {g : Grammar} {a : Symbol} {body : Body} (h : body ∈ g.rulesOf a)
    (hne : body ≠ epsilonBody) : .epsilon ∉ body :=
  fun he => hne ((g.valid.proper a body h).epsilon_alone he)

/-- A body other than the empty string is spelled as it is. -/
theorem spelled_of_mem_rulesOf {g : Grammar} {a : Symbol} {body : Body}
    (h : body ∈ g.rulesOf a) (hne : body ≠ epsilonBody) : Body.spelled body = body :=
  Body.spelled_eq_self (epsilon_notMem h hne)

/-- The symbols of all bodies, as often as they occur. -/
def symbolsOfBodies (g : Grammar) : List Symbol :=
  g.rules.entries.flatMap fun entry => entry.2.flatten

theorem mem_symbolsOfBodies {g : Grammar} {a x : Symbol} {body : Body} (hb : body ∈ g.rulesOf a)
    (hx : x ∈ body) : x ∈ g.symbolsOfBodies := by
  obtain ⟨bodies, hentry, hmem⟩ := Components.mem_rulesOf_iff_mem_entries.mp hb
  exact List.mem_flatMap.mpr ⟨(a, bodies), hentry, List.mem_flatten.mpr ⟨body, hmem, hx⟩⟩

/-- Symbols of a body other than the empty string are variables or
terminals. -/
theorem Closed.mem_vars_or_isTerminal {g : Grammar} (hg : g.Closed) {a x : Symbol} {body : Body}
    (hb : body ∈ g.rulesOf a) (hx : x ∈ Body.spelled body) :
    x ∈ g.vars ∨ x.isTerminal = true := by
  obtain ⟨hmem, he⟩ := List.mem_filter.mp hx
  cases x with
  | epsilon => cases he
  | terminal t => exact .inr rfl
  | nonterminal n => exact .inl (hg.body_declared a body hb _ hmem rfl)

/-- A variable of a closed grammar has a name. -/
theorem Closed.exists_name {g : Grammar} (hg : g.Closed) {a : Symbol} (ha : a ∈ g.vars) :
    ∃ n, a = .nonterminal n :=
  Symbol.isNonterminal_iff.mp (hg.vars_nonterminal a ha)

/-- A variable alone yields what its alternatives yield. -/
theorem Closed.yields_iff {g : Grammar} (hg : g.Closed) {a : Symbol} (ha : a ∈ g.vars)
    {w : List Symbol} :
    Yields g.rulesOf [a] w ↔ ∃ body ∈ g.rulesOf a, Yields g.rulesOf body w := by
  obtain ⟨n, rfl⟩ := hg.exists_name ha
  exact yields_nonterminal

/-- A terminal is no variable. -/
theorem Closed.notMem_vars_of_isTerminal {g : Grammar} (hg : g.Closed) {x : Symbol}
    (hx : x.isTerminal = true) : x ∉ g.vars := by
  intro hm
  have := hg.vars_nonterminal x hm
  cases x with
  | terminal t => cases this
  | epsilon => cases hx
  | nonterminal n => cases hx

/-- The test for the empty string among the alternatives. -/
theorem hasEpsilonRule_iff {g : Grammar} {a : Symbol} :
    g.hasEpsilonRule a = true ↔ epsilonBody ∈ g.rulesOf a :=
  Body.among_iff

/-- The display order names the variables. -/
theorem mem_displayOrder {g : Grammar} {a : Symbol} : a ∈ g.displayOrder ↔ a ∈ g.vars := by
  unfold displayOrder
  cases ho : g.order with
  | some order => exact (Components.listsVariables_iff.mp (g.valid.order_lists order ho)).2 a
  | none =>
    rw [List.mem_append, List.mem_filter, Text.mem_sortBy, List.mem_filter, SymbolSet.mem_members,
      decide_eq_true_eq]
    by_cases hk : a ∈ g.rules.keys
    · have := SymbolTable.contains_iff.mpr hk
      simp [hk, this]
    · have : g.rules.contains a = false := by
        rw [← Bool.not_eq_true, SymbolTable.contains_iff]
        exact hk
      simp [hk, this]

/-- The display order names no variable twice. -/
theorem nodup_displayOrder (g : Grammar) : g.displayOrder.Nodup := by
  unfold displayOrder
  cases ho : g.order with
  | some order => exact (Components.listsVariables_iff.mp (g.valid.order_lists order ho)).1
  | none =>
    refine List.nodup_append.mpr ⟨g.rules.nodup_keys.filter _, ?_, ?_⟩
    · exact (Text.sortBy_perm _ _).nodup_iff.mpr (g.vars.nodup_members.filter _)
    · rintro a ha b hb rfl
      have hk := SymbolTable.contains_iff.mpr (List.mem_filter.mp ha).1
      have hn := (List.mem_filter.mp (Text.mem_sortBy.mp hb)).2
      rw [hk] at hn
      cases hn

end Grammar

end PredictiveParsing
