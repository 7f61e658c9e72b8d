import PredictiveParsing.Proofs.Grammar.Names
import PredictiveParsing.Proofs.Reduction.Splitting
import PredictiveParsing.Proofs.Reduction.Useful

/-!
# The removal of left recursion

The removal takes one pass: after it nothing is recursive. Where the pass
can be made, every variable generates the strings that it generated before;
it cannot be made exactly if some recursive variable has recursive
alternatives only, and a grammar without useless symbols has no such
variable.
-/

namespace PredictiveParsing

namespace Grammar

/-- Grammars with the same components are the same. -/
theorem eq_of_toComponents {g h : Grammar} (e : g.toComponents = h.toComponents) : g = h := by
  cases g
  cases h
  cases e
  rfl

/-- Where nothing is recursive there is nothing to be done. -/
theorem splitPasses_of_leftRecursive_eq_nil {g : Grammar} (h : g.leftRecursive = [])
    (limit : Nat) : splitPasses limit g = .ok g := by
  cases limit with
  | zero => rfl
  | succ limit =>
    rw [splitPasses, h]

/-- Where something is recursive a pass is made. -/
theorem splitPasses_succ {g : Grammar} (h : g.leftRecursive ≠ []) (limit : Nat) :
    splitPasses (limit + 1) g = g.splitAll.check >>= splitPasses limit := by
  rw [splitPasses]
  unfold splitAll
  cases hr : g.leftRecursive with
  | nil => exact absurd hr h
  | cons a rest => rfl

/-- After a pass nothing is recursive. -/
theorem Closed.leftRecursive_eq_nil {g h : Grammar} (hg : g.Closed)
    (hh : h.toComponents = g.splitAll) : h.leftRecursive = [] := by
  refine Grammar.leftRecursive_eq_nil fun a ha body hb => ?_
  have hs := hg.splitAll
  rw [← hh] at hs
  exact hs.settled a ha List.not_mem_nil body hb

/-- The removal gives the grammar after one pass, if there is one. -/
theorem Closed.removeLeftRecursion_eq_ok_iff {g h : Grammar} (hg : g.Closed) :
    g.removeLeftRecursion = .ok h ↔ h.toComponents = g.splitAll := by
  unfold Grammar.removeLeftRecursion
  by_cases hr : g.leftRecursive = []
  · have hall : g.splitAll = g.toComponents := by
      unfold Grammar.splitAll
      rw [hr]
      rfl
    rw [splitPasses_of_leftRecursive_eq_nil hr, hall]
    constructor
    · intro e
      rw [Except.ok.inj e]
    · intro e
      rw [eq_of_toComponents e]
  · rw [splitPasses_succ hr]
    constructor
    · intro e
      obtain ⟨next, hc, hlast⟩ := exists_ok_of_bind e
      have hnext := Components.check_eq_ok hc
      rw [splitPasses_of_leftRecursive_eq_nil (hg.leftRecursive_eq_nil hnext)] at hlast
      rw [← Except.ok.inj hlast, hnext]
    · intro e
      have hvalid := h.valid
      rw [e] at hvalid
      obtain ⟨next, hc, hnext⟩ := hvalid.check_eq_ok
      have hsame := eq_of_toComponents (e.trans hnext.symm)
      rw [hc, hsame]
      exact splitPasses_of_leftRecursive_eq_nil (hg.leftRecursive_eq_nil hnext) _

/-- The removal succeeds if every recursive variable has an alternative
without recursion. -/
theorem Closed.exists_removeLeftRecursion {g : Grammar} (hg : g.Closed)
    (hbase : ∀ a ∈ g.leftRecursive, ∃ body ∈ g.rulesOf a, body.head? ≠ some a) :
    ∃ h, g.removeLeftRecursion = .ok h := by
  obtain ⟨h, -, hh⟩ := (hg.valid_splitAll hbase).check_eq_ok
  exact ⟨h, hg.removeLeftRecursion_eq_ok_iff.mpr hh⟩

/-- The removal keeps a grammar closed and its variables productive. -/
theorem Closed.removeLeftRecursion {g h : Grammar} (hg : g.Closed)
    (hh : g.removeLeftRecursion = .ok h) :
    h.Closed ∧ ((∀ a ∈ g.vars, Productive g.rulesOf a) →
      ∀ a ∈ h.vars, Productive h.rulesOf a) := by
  have e := hg.removeLeftRecursion_eq_ok_iff.mp hh
  have hs := hg.splitAll
  refine ⟨(e ▸ hs.closed : h.toComponents.Closed).grammar, fun hp => ?_⟩
  have hall := hg.productive_splitAll hp
  rw [← e] at hall
  exact hall

/-- Productive recursive variables have an alternative without recursion. -/
theorem Closed.exists_base {g : Grammar} (hg : g.Closed)
    (hp : ∀ a ∈ g.vars, Productive g.rulesOf a) :
    ∀ a ∈ g.leftRecursive, ∃ body ∈ g.rulesOf a, body.head? ≠ some a := by
  intro a ha
  have hvar := mem_vars_of_mem_leftRecursive a ha
  obtain ⟨n, rfl⟩ := hg.components.exists_name hvar
  exact exists_base_of_productive (hp _ hvar)

/-- The removal of left recursion: it ends in a grammar without direct left
recursion that generates from every old variable what was generated before,
if every recursive variable has an alternative that does not start with it;
it is refused if one has not; and it is not refused after useless symbols
are removed. -/
theorem removeLeftRecursion_keeps_generated (g : Grammar) (hg : g.Closed) :
    ((∀ a ∈ g.leftRecursive, ∃ body ∈ g.rulesOf a, body.head? ≠ some a) →
      ∃ h, g.removeLeftRecursion = .ok h ∧ h.leftRecursive = [] ∧
        ∀ a ∈ g.vars, ∀ w, Generates h.rulesOf [a] w ↔ Generates g.rulesOf [a] w) ∧
    ((∃ a ∈ g.leftRecursive, ∀ body ∈ g.rulesOf a, body.head? = some a) →
      ∃ fault, g.removeLeftRecursion = .error fault) ∧
    (∀ u, g.removeUseless = .ok u →
      (∀ a ∈ u.leftRecursive, ∃ body ∈ u.rulesOf a, body.head? ≠ some a) ∧
        ∃ h, u.removeLeftRecursion = .ok h) := by
  refine ⟨fun hbase => ?_, fun hall => ?_, fun u hu => ?_⟩
  · obtain ⟨h, hh⟩ := hg.exists_removeLeftRecursion hbase
    have e := hg.removeLeftRecursion_eq_ok_iff.mp hh
    refine ⟨h, hh, hg.leftRecursive_eq_nil e, fun a ha w => ?_⟩
    have hs := hg.splitAll
    rw [← e] at hs
    have hk := hg.vars_nonterminal a ha
    rw [generates_nonterminal hk, generates_nonterminal hk]
    exact hs.yields a ha w
  · cases hh : g.removeLeftRecursion with
    | error fault => exact ⟨fault, rfl⟩
    | ok h =>
      have e := hg.removeLeftRecursion_eq_ok_iff.mp hh
      obtain ⟨a, -, -, hget⟩ := hg.barren_splitAll hall
      rw [← e] at hget
      exact absurd rfl (h.valid.bodies_ne_nil a [] hget)
  · obtain ⟨hclosed, hp⟩ := hg.removeUseless hu
    have hbase := hclosed.exists_base hp
    exact ⟨hbase, hclosed.exists_removeLeftRecursion hbase⟩

/-- For sums the recursion is removed, and the strings stay; without useless
symbols it is removed as well; for sums without an end it is not. -/
theorem removeLeftRecursion_sums : sums.Closed ∧ sums.leftRecursive = [.nonterminal "E"] ∧
    (∃ h, sums.removeLeftRecursion = .ok h ∧ h.leftRecursive = [] ∧
      ∀ a ∈ sums.vars, ∀ w, Generates h.rulesOf [a] w ↔ Generates sums.rulesOf [a] w) ∧
    (∃ u, sums.removeUseless = .ok u ∧ ∃ h, u.removeLeftRecursion = .ok h) ∧
    endlessSums.Closed ∧ ∃ fault, endlessSums.removeLeftRecursion = .error fault := by
  have hr : sums.leftRecursive = [.nonterminal "E"] := by decide +kernel
  obtain ⟨removed, -, useful⟩ := removeLeftRecursion_keeps_generated sums sums_closed
  obtain ⟨-, refused, -⟩ := removeLeftRecursion_keeps_generated endlessSums endlessSums_closed
  refine ⟨sums_closed, hr, removed ?_, ?_, endlessSums_closed, refused ?_⟩
  · intro a ha
    rw [hr, List.mem_singleton] at ha
    refine ⟨[.terminal "x"], ?_, ?_⟩
    · rw [ha]
      decide +kernel
    · rw [ha]
      decide
  · have hu : sums.removeUseless.toOption.isSome = true := by decide +kernel
    cases hok : sums.removeUseless with
    | error fault => rw [hok] at hu; cases hu
    | ok u => exact ⟨u, rfl, (useful u hok).2⟩
  · exact ⟨.nonterminal "E", by decide +kernel, by decide +kernel⟩

end Grammar

end PredictiveParsing
