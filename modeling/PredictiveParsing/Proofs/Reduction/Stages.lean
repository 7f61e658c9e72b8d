import PredictiveParsing.Proofs.Reduction.Factoring
import PredictiveParsing.Proofs.Reduction.RecursionRemoval
import PredictiveParsing.Reduction

/-!
# The reduced grammar

Every stage of the reduction keeps a grammar closed, and keeps its variables
productive. Where useless symbols are removed, the variables are productive
from then on.
-/

namespace PredictiveParsing.Grammar

/-- A stage is passed with its outcome, or not made at all. -/
theorem stage_eq_ok {on : Bool} {transform : Grammar → Except GrammarFault Grammar} {g h : Grammar}
    (hh : stage on transform g = .ok h) :
    (on = true ∧ transform g = .ok h) ∨ (on = false ∧ h = g) := by
  cases on with
  | true => exact .inl ⟨rfl, hh⟩
  | false => exact .inr ⟨rfl, (Except.ok.inj hh).symm⟩

/-- The reduced grammar comes out of the three stages. -/
theorem reduce_eq_ok {settings : Settings} {g h : Grammar} (hh : g.reduce settings = .ok h) :
    ∃ useful split, stage settings.removeUseless removeUseless g = .ok useful ∧
      stage settings.removeLeftRecursion removeLeftRecursion useful = .ok split ∧
      stage settings.leftFactor leftFactor split = .ok h := by
  unfold reduce at hh
  obtain ⟨useful, hu, hrest⟩ := exists_ok_of_bind hh
  obtain ⟨split, hs, hf⟩ := exists_ok_of_bind hrest
  exact ⟨useful, split, hu, hs, hf⟩

/-- The reduced grammar of a closed grammar is closed. Its variables are
productive if useless symbols were removed. -/
theorem Closed.reduce {settings : Settings} {g h : Grammar} (hg : g.Closed)
    (hh : g.reduce settings = .ok h) :
    h.Closed ∧ (settings.removeUseless = true → ∀ a ∈ h.vars, Productive h.rulesOf a) := by
  obtain ⟨useful, split, hu, hs, hf⟩ := reduce_eq_ok hh
  have first : useful.Closed ∧
      (settings.removeUseless = true → ∀ a ∈ useful.vars, Productive useful.rulesOf a) := by
    rcases stage_eq_ok hu with ⟨-, hu⟩ | ⟨hoff, e⟩
    · exact ⟨(hg.removeUseless hu).1, fun _ => (hg.removeUseless hu).2⟩
    · rw [e]
      exact ⟨hg, fun hon => absurd (hoff.symm.trans hon) Bool.false_ne_true⟩
  have second : split.Closed ∧
      (settings.removeUseless = true → ∀ a ∈ split.vars, Productive split.rulesOf a) := by
    rcases stage_eq_ok hs with ⟨-, hs⟩ | ⟨-, e⟩
    · have hr := first.1.removeLeftRecursion hs
      exact ⟨hr.1, fun hon => hr.2 (first.2 hon)⟩
    · rw [e]
      exact first
  rcases stage_eq_ok hf with ⟨-, hf⟩ | ⟨-, e⟩
  · have hr := second.1.leftFactor hf
    exact ⟨hr.1, fun hon => hr.2 (second.2 hon)⟩
  · rw [e]
    exact second

end PredictiveParsing.Grammar
