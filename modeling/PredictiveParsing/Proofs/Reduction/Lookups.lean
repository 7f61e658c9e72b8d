import PredictiveParsing.Proofs.Reduction.Factoring
import PredictiveParsing.Proofs.Reduction.Splitting

/-!
# The passes of the reduction find what they look up

A pass rewrites variables one after the other. For each of them it looks up
the alternatives in the rule table, the first symbol of every alternative,
and the place of the variable in the display order, once for each new
variable. Before the pass all of this is there, since the grammar is valid.
A rewritten variable leaves the entries of the others as they are, and the
display order only gains members, so that it is still there when the turn of
a variable comes.
-/

namespace PredictiveParsing

namespace Components

/-- What is looked up where a variable is rewritten is there. -/
structure Lookups (c : Components) (a : Symbol) : Prop where
  /-- The rule table has the variable, and every alternative has a first
  symbol. -/
  alternatives : ∃ bodies, c.rules.get? a = some bodies ∧ [] ∉ bodies
  /-- A display order has the variable. -/
  place : ∀ order, c.order = some order → a ∈ order
  /-- It still has the variable once a new one stands beside it. -/
  placeAgain : ∀ order, c.order = some order → ∀ new, a ∈ placeFresh a new order

variable {c : Components} {a b : Symbol}

/-- A display order loses no member when a new variable is placed. -/
theorem mem_placeFresh {base new : Symbol} {order : List Symbol} (h : b ∈ order) :
    b ∈ placeFresh base new order :=
  (insertAt_perm _ new order).mem_iff.mpr (List.mem_cons_of_mem new h)

namespace Lookups

/-- The alternatives of another variable do not matter. -/
theorem setRules (h : c.Lookups b) (hne : a ≠ b) (bodies : List Body) :
    (c.setRules a bodies).Lookups b := by
  refine ⟨?_, h.place, h.placeAgain⟩
  have hget : (c.setRules a bodies).rules.get? b = c.rules.get? b := by
    rw [Components.setRules, SymbolTable.get?_set, if_neg hne]
  rw [hget]
  exact h.alternatives

/-- A new variable does not matter. -/
theorem addVariable (h : c.Lookups b) {new : Symbol} (hne : new ≠ b) (base : Symbol)
    (bodies : List Body) : (c.addVariable base new bodies).Lookups b := by
  have hplace : ∀ order, (c.addVariable base new bodies).order = some order → b ∈ order := by
    intro order horder
    obtain ⟨earlier, hearlier, rfl⟩ := Option.map_eq_some_iff.mp horder
    exact mem_placeFresh (h.place earlier hearlier)
  refine ⟨?_, hplace, fun order horder new => mem_placeFresh (hplace order horder)⟩
  have hget : (c.addVariable base new bodies).rules.get? b = c.rules.get? b := by
    rw [Components.addVariable, SymbolTable.get?_set, if_neg hne]
  rw [hget]
  exact h.alternatives

/-- The split of another variable does not matter. -/
theorem splitRecursion (h : c.Lookups b) (hb : b ∈ c.vars) (hne : a ≠ b) :
    (c.splitRecursion a).Lookups b := by
  have hfirst : .nonterminal (c.splitFirst a) ≠ b := fun e => c.splitFirst_notMem a (e ▸ hb)
  have hsecond : .nonterminal (c.splitSecond a) ≠ b := fun e => c.splitSecond_notMem a (e ▸ hb)
  exact ((h.setRules hne _).addVariable hfirst a _).addVariable hsecond a _

/-- A prefix factored from another variable does not matter. -/
theorem factorOut (h : c.Lookups b) (hb : b ∈ c.vars) {target : Symbol × Body}
    (hne : target.1 ≠ b) : (c.factorOut target).Lookups b := by
  have hnew : .nonterminal (c.factorName target.1) ≠ b :=
    fun e => c.factorName_notMem target.1 (e ▸ hb)
  exact (h.setRules hne _).addVariable hnew target.1 _

end Lookups

/-- Through a pass that rewrites other variables, the lookups for a variable
stay possible. -/
theorem lookups_foldl {α : Type} {rewrite : Components → α → Components} {key : α → Symbol}
    (keeps : ∀ c target, b ∈ c.vars → key target ≠ b → c.Lookups b →
      b ∈ (rewrite c target).vars ∧ (rewrite c target).Lookups b)
    {done : List α} (hb : b ∈ c.vars) (h : c.Lookups b) (hn : b ∉ done.map key) :
    (done.foldl rewrite c).Lookups b := by
  induction done generalizing c with
  | nil => exact h
  | cons target rest ih =>
    rw [List.map_cons, List.mem_cons, not_or] at hn
    obtain ⟨hvar, hnext⟩ := keeps c target hb (Ne.symm hn.1) h
    exact ih hvar hnext hn.2

end Components

namespace Grammar

/-- Whenever a pass that sets out from a grammar comes to a variable, what is
looked up is there. -/
structure PassLookups (g : Grammar) : Prop where
  /-- A pass that splits the left-recursive variables. -/
  splitting : ∀ done a rest, g.leftRecursive = done ++ a :: rest →
    (done.foldl Components.splitRecursion g.toComponents).Lookups a
  /-- A pass that factors prefixes. -/
  factoring : ∀ done target rest, g.factorable = done ++ target :: rest →
    (done.foldl Components.factorOut g.toComponents).Lookups target.1

/-- Before a pass everything is there for a variable with alternatives. -/
theorem lookups_of_mem_rulesOf {g : Grammar} {a : Symbol} {body : Body}
    (h : body ∈ g.rulesOf a) : g.toComponents.Lookups a := by
  obtain ⟨bodies, hget, -⟩ := Components.mem_rulesOf_iff.mp h
  have hplace : ∀ order, g.order = some order → a ∈ order := fun order horder =>
    ((Components.listsVariables_iff.mp (g.valid.order_lists order horder)).2 a).mpr
      (mem_vars_of_mem_rulesOf h)
  refine ⟨⟨bodies, hget, fun hnil => ?_⟩, hplace,
    fun order horder new => Components.mem_placeFresh (hplace order horder)⟩
  exact (g.valid.proper a [] (Components.mem_rulesOf_iff.mpr ⟨bodies, hget, hnil⟩)).ne_nil rfl

/-- Each variable has its turn only once. -/
theorem notMem_of_nodup_append {α : Type} {key : α → Symbol} {l done rest : List α} {target : α}
    (h : (l.map key).Nodup) (hl : l = done ++ target :: rest) : key target ∉ done.map key := by
  intro hmem
  rw [hl, List.map_append, List.map_cons, List.nodup_append] at h
  exact h.2.2 _ hmem _ List.mem_cons_self rfl

/-- No lookup of a pass fails, whatever the grammar. -/
theorem passLookups (g : Grammar) : g.PassLookups where
  splitting := by
    intro done a rest hl
    have ha : a ∈ g.leftRecursive := hl ▸ List.mem_append_right _ List.mem_cons_self
    obtain ⟨hvar, body, hbody, -⟩ := mem_leftRecursive.mp ha
    have hnodup : (g.leftRecursive.map id).Nodup := (List.map_id _).symm ▸ g.nodup_leftRecursive
    refine Components.lookups_foldl (fun c b hb hne h => ?_) hvar (lookups_of_mem_rulesOf hbody)
      (notMem_of_nodup_append hnodup hl)
    exact ⟨Components.mem_vars_splitRecursion.mpr (.inr (.inr hb)), h.splitRecursion hb hne⟩
  factoring := by
    intro done target rest hl
    have ha : target ∈ g.factorable := hl ▸ List.mem_append_right _ List.mem_cons_self
    obtain ⟨hvar, -, body, hbody, -⟩ := of_mem_factorable ha
    refine Components.lookups_foldl (fun c other hb hne h => ?_) hvar
      (lookups_of_mem_rulesOf hbody) (notMem_of_nodup_append g.nodup_factorable hl)
    exact ⟨Components.mem_vars_factorOut.mpr (.inr hb), h.factorOut hb hne⟩

end Grammar

end PredictiveParsing
