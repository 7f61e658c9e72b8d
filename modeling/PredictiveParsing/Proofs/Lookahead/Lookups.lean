import PredictiveParsing.Proofs.ActionTable
import PredictiveParsing.Proofs.Grammar.Numbering
import PredictiveParsing.Proofs.Lookahead.Follow

/-!
# An analysis finds what it looks up

The passes over the FIRST and FOLLOW sets ask their tables for variables
only, and a pass never changes which symbols a table has. So no pass misses a
symbol, and every variable has a set when the sets are listed. The display
order names all variables, so that each has the number of its first rule, and
a cell of the action table holds alternatives of its variable only, so that
each of them has a place among these.
-/

namespace PredictiveParsing

/-- What a number of passes makes of a first value. -/
inductive Passes {α : Type} (pass : α → α) (initial : α) : α → Prop
  /-- Before the first pass. -/
  | none : Passes pass initial initial
  /-- After a further pass. -/
  | more {a : α} (before : Passes pass initial a) : Passes pass initial (pass a)

/-- What every pass keeps holds after all of them. -/
theorem Passes.keeps {α : Type} {pass : α → α} {initial a : α} {holds : α → Prop}
    (h : Passes pass initial a) (keeps : ∀ a, holds a → holds (pass a)) (hi : holds initial) :
    holds a := by
  induction h with
  | none => exact hi
  | more _ ih => exact keeps _ ih

namespace Grammar

/-- What is looked up in the analysis of a grammar is there. -/
structure AnalysisLookups (g : Grammar) : Prop where
  /-- Every alternative has a first symbol. -/
  leading : ∀ a, ∀ body ∈ g.rulesOf a, body ≠ []
  /-- No pass over the FIRST sets misses a variable. -/
  first : ∀ t, Passes g.firstStep g.initialFirst t → g.firstPass t = .ok (g.firstStep t)
  /-- No pass over the FOLLOW sets misses a variable. -/
  follow : ∀ t, Passes (g.followStep g.firstTable) g.initialFollow t →
    g.followPass g.firstTable t = .ok (g.followStep g.firstTable t)
  /-- Every variable that is displayed has the number of its first rule. -/
  numbered : ∀ a ∈ g.displayOrder, (g.firstNumber? a).isSome = true
  /-- What is stored in a cell has a place among the alternatives of its
  variable. -/
  indexed : ∀ a t, ∀ body ∈ (ActionTable.ofGrammar g).stored a t, body ∈ g.rulesOf a
  /-- The sets and the table can be listed. -/
  listed : ∀ label, ∃ text, (ActionTable.ofGrammar g).listing label = .ok text

variable {g : Grammar}

/-! ### FIRST sets -/

/-- A pass over the FIRST sets keeps the symbols of the table. -/
theorem keys_firstStep (t : FirstTable) : (g.firstStep t).keys = t.keys :=
  foldl_keeps (fun u hu leading _ => (SymbolTable.keys_modify u leading.1 _).trans hu) t rfl

/-- A table with all variables lets a pass through. -/
theorem firstPass_eq_ok {t : FirstTable} (h : ∀ a ∈ g.vars, a ∈ t.keys) :
    g.firstPass t = .ok (g.firstStep t) := by
  have hfound : g.leadings.find? (fun leading => !t.contains leading.1) = none := by
    rw [List.find?_eq_none]
    intro leading hl hmissing
    obtain ⟨body, hbody, -⟩ := mem_leadings.mp (show (leading.1, leading.2) ∈ g.leadings from hl)
    rw [SymbolTable.contains_iff.mpr (h _ (mem_vars_of_mem_rulesOf hbody))] at hmissing
    cases hmissing
  rw [firstPass, hfound]

/-- A table with the symbols of the initial one has all variables. -/
theorem mem_keys_of_initialFirst {t : FirstTable} (h : t.keys = g.initialFirst.keys) {a : Symbol}
    (ha : a ∈ g.vars) : a ∈ t.keys := by
  rw [h, (firstSets_initialFirst g).keys]
  exact mem_analysedSymbols_of_mem_vars ha

/-- The passes over the FIRST sets keep the symbols of the table. -/
theorem keys_firstTable : g.firstTable.keys = g.initialFirst.keys := by
  have keeps : ∀ t : FirstTable, t.keys = g.initialFirst.keys →
      (g.firstStep t).keys = g.initialFirst.keys :=
    fun t ht => (keys_firstStep t).trans ht
  exact stabilize_induction keeps _ _ rfl

/-! ### FOLLOW sets -/

/-- A contribution to a FOLLOW set keeps the symbols of the table. -/
theorem keys_absorb (first : FirstTable) (t : FollowTable) (o : Occurrence) :
    (FollowTable.absorb first t o).keys = t.keys := by
  rw [FollowTable.absorb]
  split
  · next s hs => rw [SymbolTable.keys_set, if_pos (SymbolTable.mem_keys_iff.mpr ⟨_, hs⟩)]
  · rfl

/-- A pass over the FOLLOW sets keeps the symbols of the table. -/
theorem keys_followStep (first : FirstTable) (t : FollowTable) :
    (g.followStep first t).keys = t.keys :=
  foldl_keeps (fun u hu o _ => (keys_absorb first u o).trans hu) t rfl

/-- A table with all variables lets a pass through. -/
theorem followPass_eq_ok {first : FirstTable} {t : FollowTable} (h : ∀ a ∈ g.vars, a ∈ t.keys) :
    g.followPass first t = .ok (g.followStep first t) := by
  have hfound : g.occurrences.findSome? (FollowTable.missing? first t) = none := by
    rw [List.findSome?_eq_none_iff]
    intro o ho
    obtain ⟨body, hbody, _, _, -, hsubject, -⟩ :=
      mem_occurrences.mp (show ⟨o.owner, o.subject, o.next⟩ ∈ g.occurrences from ho)
    have howner := SymbolTable.contains_iff.mpr (h _ (mem_vars_of_mem_rulesOf hbody))
    obtain ⟨entry, hentry⟩ := SymbolTable.mem_keys_iff.mp (h _ hsubject)
    rw [FollowTable.missing?, hentry]
    cases entry with
    | none => rfl
    | some s =>
      dsimp only
      rw [howner, Bool.not_true, Bool.and_false, if_neg Bool.false_ne_true]
  rw [followPass, hfound]

/-! ### Listing -/

/-- The FIRST sets of variables can be listed. -/
theorem exists_firstLines (label : String) {order : List Symbol} (h : ∀ a ∈ order, a ∈ g.vars) :
    ∃ lines, (ActionTable.ofGrammar g).firstLines label order = .ok lines := by
  induction order with
  | nil => exact ⟨[], rfl⟩
  | cons a rest ih =>
    obtain ⟨lines, hlines⟩ := ih fun b hb => h b (List.mem_cons_of_mem _ hb)
    obtain ⟨s, hs⟩ := SymbolTable.mem_keys_iff.mp
      (mem_keys_of_initialFirst keys_firstTable (h a List.mem_cons_self))
    have hfirst : (ActionTable.ofGrammar g).lookahead.first.get? a = some s := hs
    rw [ActionTable.firstLines, hfirst, hlines]
    exact ⟨_, rfl⟩

/-- No lookup of an analysis fails, whatever the grammar. -/
theorem analysisLookups (g : Grammar) : g.AnalysisLookups where
  leading := fun a body h => (g.valid.proper a body h).ne_nil
  first := fun t ht => by
    have hkeys := ht.keeps (fun u hu => (keys_firstStep u).trans hu) rfl
    exact firstPass_eq_ok fun a ha => mem_keys_of_initialFirst hkeys ha
  follow := fun t ht => by
    have hkeys := ht.keeps (fun u hu => (keys_followStep g.firstTable u).trans hu)
      (followSets_initialFollow g).keys
    exact followPass_eq_ok fun a ha => hkeys ▸ SymbolSet.mem_members.mpr ha
  numbered := fun a ha => isSome_firstNumber? (mem_displayOrder.mp ha)
  indexed := fun a t body hb => (mem_predictions.mp (ActionTable.mem_stored_iff.mp hb)).1
  listed := fun label => by
    obtain ⟨lines, hlines⟩ := exists_firstLines label fun a ha => mem_displayOrder.mp ha
    have horder : (ActionTable.ofGrammar g).grammar.displayOrder = g.displayOrder := rfl
    rw [ActionTable.listing, horder, hlines]
    exact ⟨_, rfl⟩

end Grammar

end PredictiveParsing
