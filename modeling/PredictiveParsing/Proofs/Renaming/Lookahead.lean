import PredictiveParsing.Proofs.ActionTable
import PredictiveParsing.Proofs.Lookahead.Followers
import PredictiveParsing.Proofs.Renaming.Stages

/-!
# Lookahead sets do not look at the order

A chain of leading symbols in one grammar becomes one in a grammar to which a
renaming carries it, and so does the reason why a symbol follows a variable.
Hence both grammars have the same FIRST and FOLLOW sets for corresponding
variables: what the sets hold are terminals and the empty string, which are not
renamed. Where nothing is renamed the tables of the sets are equal, and so are
the cells of the action tables, of which each is made from the alternatives of
one variable.
-/

namespace PredictiveParsing

open Renaming

namespace Grammar

variable {g h : Grammar} {σ : Renaming} {a t x : Symbol}

/-- A chain of leading symbols becomes one. -/
theorem Leads.carries (hσ : σ.Carries g.toComponents h.toComponents) {n : Nat}
    (hl : g.Leads n a t) : h.Leads n (σ a) (σ t) := by
  induction hl with
  | self notMem => exact .self fun hm => notMem ((hσ.vars _).mp hm)
  | step mem head _ ih =>
    exact .step ((mem_rulesOf_carries hσ).mpr mem) ((head?_body σ _ _).mpr head) ih

/-- A chain between renamed symbols comes from one. -/
theorem leads_carries_iff (hσ : σ.Carries g.toComponents h.toComponents) {n : Nat} :
    h.Leads n (σ a) (σ t) ↔ g.Leads n a t := by
  refine ⟨fun hl => ?_, Leads.carries hσ⟩
  have hback := hl.carries hσ.inverse
  rw [inverse_apply, inverse_apply] at hback
  exact hback

/-- The members of the FIRST set of a variable or of a symbol that is no
nonterminal are no nonterminals. -/
theorem Closed.isNonterminal_of_mem_lookup (hg : g.Closed)
    (ha : a.isNonterminal = true → a ∈ g.vars) (ht : t ∈ g.firstTable.lookup a) :
    t.isNonterminal = false := by
  obtain ⟨n, hn⟩ := hg.firstSets.leads hg ht
  cases hk : t.isNonterminal with
  | false => rfl
  | true =>
    rcases hn.eq_or_occurs with rfl | ⟨b, body, hbody, hmem⟩
    · exact absurd (ha hk) hn.notMem
    · exact absurd (hg.body_declared b body hbody t hmem hk) hn.notMem

/-- Corresponding symbols have the same FIRST set. -/
theorem Closed.lookup_carries (hg : g.Closed) (hh : h.Closed)
    (hσ : σ.Carries g.toComponents h.toComponents)
    (ha : a.isNonterminal = true → a ∈ g.vars) :
    h.firstTable.lookup (σ a) = g.firstTable.lookup a := by
  have ha' : (σ a).isNonterminal = true → σ a ∈ h.vars := fun hk =>
    (hσ.vars a).mpr (ha ((σ.isNonterminal_apply a).symm.trans hk))
  refine SymbolSet.ext fun b => ?_
  obtain ⟨t, rfl⟩ := σ.exists_apply_eq b
  have hiff : σ t ∈ h.firstTable.lookup (σ a) ↔ t ∈ g.firstTable.lookup a := by
    rw [hh.mem_lookup_iff ha', hg.mem_lookup_iff ha]
    exact exists_congr fun n => leads_carries_iff hσ
  constructor
  · intro ht
    have hk := hh.isNonterminal_of_mem_lookup ha' ht
    rw [σ.isNonterminal_apply] at hk
    rw [σ.apply_eq_self hk]
    exact hiff.mp ht
  · intro ht
    have hk := hg.isNonterminal_of_mem_lookup ha ht
    rw [σ.isNonterminal_apply] at hk
    rw [σ.apply_eq_self hk] at ht
    exact hiff.mpr ht

/-- What follows a variable follows the corresponding one. -/
theorem Follows.carries (hσ : σ.Carries g.toComponents h.toComponents) (hf : g.Follows x t) :
    h.Follows (σ x) (σ t) := by
  have hstart : h.start = σ g.start := hσ.start
  have ne : ∀ {y}, y ≠ g.start → σ y ≠ h.start := fun hy e =>
    hy (σ.injective (e.trans hstart))
  have mem : ∀ {b left rest}, left ++ rest ∈ g.rulesOf b →
      σ.body left ++ σ.body rest ∈ h.rulesOf (σ b) := fun hb =>
    σ.body_append _ _ ▸ (mem_rulesOf_carries hσ).mpr hb
  induction hf with
  | @next b x y t left rest n hmem hx hne leads notEmpty =>
    refine .next (mem hmem) ((hσ.vars x).mpr hx) (ne hne) (leads.carries hσ) fun e => notEmpty ?_
    exact (σ.apply_eq_iff rfl).mp e
  | @last b x t left hmem hx hne _ ih =>
    exact .last (mem hmem) ((hσ.vars x).mpr hx) (ne hne) ih
  | @vanishing b x y t left rest n hmem hx hne leads _ ih =>
    have hleads := leads.carries hσ
    exact .vanishing (mem hmem) ((hσ.vars x).mpr hx) (ne hne) hleads ih

/-- The members of FOLLOW sets are no nonterminals. -/
theorem Closed.isNonterminal_of_mem_follow (hg : g.Closed)
    (ht : t ∈ g.followTable.members x) : t.isNonterminal = false := by
  obtain ⟨hvar, -, b, body, hbody, hmem⟩ := hg.followSets.mem_members ht
  cases hk : t.isNonterminal with
  | false => rfl
  | true => exact absurd (hg.body_declared b body hbody t hmem hk) hvar

/-- Corresponding variables have the same FOLLOW set. -/
theorem Closed.members_carries (hg : g.Closed) (hh : h.Closed)
    (hσ : σ.Carries g.toComponents h.toComponents) :
    h.followTable.members (σ x) = g.followTable.members x := by
  refine SymbolSet.ext fun b => ⟨fun hb => ?_, fun hb => ?_⟩
  · have hk := hh.isNonterminal_of_mem_follow hb
    have hback := (hh.mem_follow_iff.mp hb).carries hσ.inverse
    rw [inverse_apply, σ.inverse.apply_eq_self hk] at hback
    exact hg.mem_follow_iff.mpr hback
  · have hk := hg.isNonterminal_of_mem_follow hb
    have hforth := (hg.mem_follow_iff.mp hb).carries hσ
    rw [σ.apply_eq_self hk] at hforth
    exact hh.mem_follow_iff.mpr hforth

end Grammar

namespace SymbolTable

/-- The entries are the keys with their values. -/
theorem map_keys {α : Type} (t : SymbolTable α) :
    t.keys.map (fun key => (key, t.get? key)) =
      t.entries.map fun entry => (entry.1, some entry.2) := by
  rw [keys, List.map_map]
  refine List.map_congr_left fun entry hentry => ?_
  exact congrArg (Prod.mk entry.1) (mem_entries_iff.mp hentry)

/-- Tables with the same keys in the same order and the same values are
equal. -/
theorem eq_of_keys {α : Type} {t u : SymbolTable α} (hkeys : t.keys = u.keys)
    (hget : ∀ a ∈ t.keys, t.get? a = u.get? a) : t = u := by
  have hpairs : t.entries.map (fun entry => (entry.1, some entry.2)) =
      u.entries.map fun entry => (entry.1, some entry.2) := by
    rw [← map_keys, ← map_keys, ← hkeys]
    exact List.map_congr_left fun a ha => congrArg (Prod.mk a) (hget a ha)
  have hinjective : Function.Injective fun entry : Symbol × α => (entry.1, some entry.2) :=
    fun entry other h => Prod.ext (Prod.mk.inj h).1 (Option.some.inj (Prod.mk.inj h).2)
  exact eq_of_entries (List.map_injective_iff.mpr hinjective hpairs)

end SymbolTable

namespace Grammar

variable {g h : Grammar}

/-- Grammars that differ in their orders only have the same table of FIRST
sets. -/
theorem Closed.firstTable_eq (hg : g.Closed) (hs : g.SameUpToOrder h.toComponents) :
    h.firstTable = g.firstTable := by
  have hh : h.Closed := (hs.closed hg.components).grammar
  have hsymbols : h.analysedSymbols = g.analysedSymbols := by
    rw [analysedSymbols, analysedSymbols, hs.vars, hs.terminals]
  refine SymbolTable.eq_of_keys ?_ fun a ha => ?_
  · rw [hh.firstSets.keys, hg.firstSets.keys, hsymbols]
  · rw [hh.firstSets.keys, hsymbols] at ha
    obtain ⟨s, hs'⟩ := hg.firstSets.exists_get? ha
    obtain ⟨u, hu⟩ := hh.firstSets.exists_get? (hsymbols ▸ ha)
    have hlookup := hg.lookup_carries hh hs.carries (hg.mem_vars_of_mem_analysedSymbols ha)
    rw [id_apply, FirstTable.lookup, FirstTable.lookup, hs', hu] at hlookup
    rw [hs', hu]
    exact congrArg some hlookup

/-- Grammars that differ in their orders only have the same table of FOLLOW
sets. -/
theorem Closed.followTable_eq (hg : g.Closed) (hs : g.SameUpToOrder h.toComponents) :
    h.followTable = g.followTable := by
  have hh : h.Closed := (hs.closed hg.components).grammar
  refine SymbolTable.eq_of_keys ?_ fun a ha => ?_
  · rw [hh.followSets.keys, hg.followSets.keys, hs.vars]
  · rw [hh.followSets.keys, hs.vars] at ha
    by_cases hstart : a = g.start
    · have hstart' := get?_followTable_start h
      rw [hs.start] at hstart'
      rw [hstart, hstart', get?_followTable_start]
    · have ha' : a ∈ h.vars := hs.vars ▸ ha
      obtain ⟨s, hs'⟩ := hg.followSets.exists_set a ha hstart
      obtain ⟨u, hu⟩ := hh.followSets.exists_set a ha' fun e => hstart (e.trans hs.start)
      have hmembers := @Closed.members_carries g h Renaming.id a hg hh hs.carries
      rw [id_apply, FollowTable.members, FollowTable.members, hs', hu] at hmembers
      rw [hs', hu]
      exact congrArg (fun s => some (some s)) hmembers

end Grammar

namespace ActionTable

variable {g h : Grammar} {l : Lookahead}

/-- Tables that predict the same have the same conflicts. -/
theorem isLL_eq_of_predictions (hp : ∀ p, p ∈ predictions h l ↔ p ∈ predictions g l) (n : Int) :
    (build h l).isLL n = (build g l).isLL n := by
  have hcell : ∀ a t, ((build h l).cell a t).Perm ((build g l).cell a t) := by
    intro a t
    refine (List.perm_ext_iff_of_nodup (nodup_cell _ a t) (nodup_cell _ a t)).mpr fun body => ?_
    rw [cell_perm_stored.mem_iff, cell_perm_stored.mem_iff, mem_stored_iff, mem_stored_iff, hp]
  rw [Bool.eq_iff_iff, isLL_iff, isLL_iff]
  refine forall_congr' fun a => forall_congr' fun t => ?_
  rw [List.ne_nil_iff_length_pos, List.ne_nil_iff_length_pos, (hcell a t).length_eq]

/-- The action tables of grammars that differ in their orders only have the same
cells and the same conflicts. -/
theorem cell_eq_of_sameUpToOrder (hg : g.Closed) (hs : g.SameUpToOrder h.toComponents) :
    (∀ a t, (ofGrammar h).cell a t = (ofGrammar g).cell a t) ∧
      ∀ n, (ofGrammar h).isLL n = (ofGrammar g).isLL n := by
  have hrules : h.rulesOf = g.rulesOf := hs.rulesOf_eq
  have hlookahead : Lookahead.ofGrammar h = Lookahead.ofGrammar g := by
    rw [Lookahead.ofGrammar, Lookahead.ofGrammar, hg.firstTable_eq hs, hg.followTable_eq hs]
  have hp : ∀ p, p ∈ predictions h (Lookahead.ofGrammar g) ↔
      p ∈ predictions g (Lookahead.ofGrammar g) := by
    intro ⟨a, t, body⟩
    rw [mem_predictions, mem_predictions, hrules]
  rw [ofGrammar, ofGrammar, hlookahead]
  refine ⟨fun a t => ?_, isLL_eq_of_predictions hp⟩
  rw [cell, cell]
  dsimp only [build]
  rw [hrules]
  refine List.filter_congr fun body _ => ?_
  rw [Bool.eq_iff_iff, Body.among_iff, Body.among_iff]
  exact mem_stored_iff.trans ((hp _).trans mem_stored_iff.symm)

end ActionTable

end PredictiveParsing
