import PredictiveParsing.Proofs.Reduction.Stages
import PredictiveParsing.Proofs.Reduction.TrimStages

/-!
# The reduction ends in a normal form

The reduction is refused exactly if there is no sentence, since only the first
stage can refuse anything: what it leaves is productive, so that every
recursive variable has an alternative without recursion. Otherwise the outcome
is normal for all stages at once, and is not changed by a second reduction.
The sentences are those of the grammar one began with.
-/

namespace PredictiveParsing.Grammar

/-- By default all stages are made. -/
theorem reduce_default (g : Grammar) : g.reduce {} =
    g.removeUseless >>= fun useful => useful.removeLeftRecursion >>= leftFactor :=
  rfl

/-- Where no stage has anything to do the grammar is left as it is. -/
theorem reduce_eq_self {g : Grammar} (hu : g.removeUseless = .ok g) (hr : g.leftRecursive = [])
    (hf : g.factorable = []) : g.reduce {} = .ok g := by
  have hsplit : g.removeLeftRecursion = .ok g := splitPasses_of_leftRecursive_eq_nil hr _
  have hfactor : g.leftFactor = .ok g := factorPasses_of_factorable_eq_nil hf _
  rw [reduce_default, hu]
  change g.removeLeftRecursion >>= leftFactor = .ok g
  rw [hsplit]
  exact hfactor

/-- After the first stage the others are made. -/
theorem Closed.exists_reduce {g useful : Grammar} (hg : g.Closed)
    (hu : g.removeUseless = .ok useful) :
    ∃ split r : Grammar, split.toComponents = useful.splitAll ∧ split.leftFactor = .ok r ∧
      g.reduce {} = .ok r := by
  obtain ⟨hclosed, hp⟩ := hg.removeUseless hu
  obtain ⟨split, hs⟩ := hclosed.exists_removeLeftRecursion (hclosed.exists_base hp)
  obtain ⟨r, hr, -, -⟩ := (hclosed.removeLeftRecursion hs).1.exists_leftFactor
  refine ⟨split, r, hclosed.removeLeftRecursion_eq_ok_iff.mp hs, hr, ?_⟩
  rw [reduce_default, hu]
  change useful.removeLeftRecursion >>= Grammar.leftFactor = .ok r
  rw [hs]
  exact hr

/-- The stages that a reduction went through. -/
theorem Closed.of_reduce {g r : Grammar} (hg : g.Closed) (hr : g.reduce {} = .ok r) :
    ∃ useful split : Grammar, g.removeUseless = .ok useful ∧ split.toComponents = useful.splitAll ∧
      split.leftFactor = .ok r := by
  cases hu : g.removeUseless with
  | error fault =>
    rw [reduce_default, hu] at hr
    cases hr
  | ok useful =>
    obtain ⟨split, last, hsplit, hlast, hall⟩ := hg.exists_reduce hu
    rw [hr] at hall
    exact ⟨useful, split, rfl, hsplit, by rw [hlast, Except.ok.inj hall]⟩

/-- The reduction is refused exactly if there is no sentence. -/
theorem Closed.reduce_eq_error_iff {g : Grammar} (hg : g.Closed) :
    (∃ fault, g.reduce {} = .error fault) ↔ ¬∃ w, g.Sentence w := by
  rw [← hg.removeUseless_eq_error_iff]
  constructor
  · intro ⟨fault, hf⟩
    cases hu : g.removeUseless with
    | error fault => exact ⟨fault, rfl⟩
    | ok useful =>
      obtain ⟨-, r, -, -, hr⟩ := hg.exists_reduce hu
      rw [hf] at hr
      cases hr
  · intro ⟨fault, hf⟩
    rw [reduce_default, hf]
    exact ⟨fault, rfl⟩

/-- The reduced grammar comes out of the useful part by a pass of splitting and
factorings that leave nothing to be factored. -/
theorem Closed.steps_of_reduce {g r : Grammar} (hg : g.Closed) (hr : g.reduce {} = .ok r) :
    ∃ useful : Grammar, g.removeUseless = .ok useful ∧ useful.Closed ∧
      Components.FactorSteps useful.splitAll r.toComponents ∧ r.factorable = [] := by
  obtain ⟨useful, split, hu, hs, hf⟩ := hg.of_reduce hr
  have hclosed := (hg.removeUseless hu).1
  have hsplit := hclosed.splitAll.closed
  rw [← hs] at hsplit
  obtain ⟨last, hlast, hdone, hsteps⟩ := hsplit.grammar.exists_leftFactor
  rw [hf] at hlast
  rw [← Except.ok.inj hlast, hs] at hsteps
  exact ⟨useful, hu, hclosed, hsteps, Except.ok.inj hlast ▸ hdone⟩

/-- The reduced grammar is trim. -/
theorem Closed.trim_of_reduce {g r : Grammar} (hg : g.Closed) (hr : g.reduce {} = .ok r) :
    r.Trim := by
  obtain ⟨useful, hu, hclosed, hsteps, -⟩ := hg.steps_of_reduce hr
  exact ((hclosed.trim_splitAll (hg.trim_removeUseless hu)).steps hclosed.splitAll.closed hsteps).2

/-- The terminals in the bodies of the reduced grammar are terminals of the
grammar. -/
theorem Closed.mem_terminals_of_reduce {g r : Grammar} (hg : g.Closed) (hr : g.reduce {} = .ok r)
    {a t : Symbol} {body : Body} (hbody : body ∈ r.rulesOf a) (ht : t ∈ body)
    (hterminal : t.isTerminal = true) : t ∈ g.terminals := by
  have hmem := (hg.trim_of_reduce hr).declared a body hbody t ht hterminal
  obtain ⟨useful, hu, -, hsteps, -⟩ := hg.steps_of_reduce hr
  rw [hsteps.unchanged.2, useful.splitAll_unchanged.2] at hmem
  exact ((hg.usefulPart hu).mem_terminals t |>.mp hmem).1

/-- The reduced grammar is neat, if no variable was an alternative of itself,
and no alternatives share a prefix. -/
theorem Closed.neat_of_reduce {g r : Grammar} (hg : g.Closed) (hl : g.Loopless)
    (hr : g.reduce {} = .ok r) : r.Neat ∧ r.factorable = [] := by
  obtain ⟨useful, hu, hclosed, hsteps, hdone⟩ := hg.steps_of_reduce hr
  have hpart := hg.usefulPart hu
  have hloop : useful.Loopless := fun a ha =>
    hl a (mem_knownProductions.mp ((hpart.mem_rulesOf a [a]).mp ha).2).2.1
  exact ⟨(hclosed.neat_splitAll (hg.trim_removeUseless hu) hloop).steps hsteps, hdone⟩

/-- Grammars with the same start symbol and the same terminals have the same
sentences if the start symbol yields the same strings. -/
theorem sentence_congr {g h : Grammar} (hg : g.Closed) (hh : h.Closed) (hs : h.start = g.start)
    (ht : h.terminals = g.terminals)
    (hy : ∀ w, Yields h.rulesOf [g.start] w ↔ Yields g.rulesOf [g.start] w) (w : List Symbol) :
    h.Sentence w ↔ g.Sentence w := by
  rw [hh.sentence_iff, hg.sentence_iff, hs, hy]
  unfold Declares
  rw [ht]

/-- The reduction keeps the sentences. -/
theorem Closed.sentence_reduce_iff {g r : Grammar} (hg : g.Closed) (hr : g.reduce {} = .ok r)
    (w : List Symbol) : r.Sentence w ↔ g.Sentence w := by
  obtain ⟨useful, split, hu, hs, hf⟩ := hg.of_reduce hr
  have hclosed := (hg.removeUseless hu).1
  have hpass := hclosed.splitAll
  obtain ⟨hstart, hterms⟩ := useful.splitAll_unchanged
  rw [← hs] at hpass hstart hterms
  have hsplit := hpass.closed.grammar
  obtain ⟨last, hlast, -, hsteps⟩ := hsplit.exists_leftFactor
  rw [hf] at hlast
  rw [← Except.ok.inj hlast] at hsteps
  have hfrom := hsplit.factoredFrom hf
  rw [← (hg.usefulPart hu).sentence_iff hg hclosed,
    ← sentence_congr hclosed hsplit hstart hterms (hpass.yields _ useful.valid.start_mem),
    sentence_congr hsplit hfrom.closed.grammar hsteps.unchanged.1 hsteps.unchanged.2
      (hfrom.yields _ split.valid.start_mem)]

/-- The reduction of a grammar without rules that replace a variable by itself
is refused exactly if there is no sentence. Otherwise no stage changes its
outcome any more. -/
theorem reduce_normal (g : Grammar) (hg : g.Closed) (hl : g.Loopless) :
    ((∃ fault, g.reduce {} = .error fault) ↔ ¬∃ w, g.Sentence w) ∧
    ∀ r, g.reduce {} = .ok r →
      r.removeUseless = .ok r ∧ r.leftRecursive = [] ∧ r.factorable = [] ∧
      r.reduce {} = .ok r := by
  refine ⟨hg.reduce_eq_error_iff, fun r hr => ?_⟩
  obtain ⟨hneat, hfactor⟩ := hg.neat_of_reduce hl hr
  have hu := hneat.closed.grammar.removeUseless_eq_self hneat.trim
  have hrec := leftRecursive_eq_nil_of_neat hneat
  exact ⟨hu, hrec, hfactor, reduce_eq_self hu hrec hfactor⟩

/-- Sums and differences of a variable that may have an index, with a variable
that is of no use. -/
def indexedSums : Grammar :=
  ⟨componentsOfNames ["E", "T", "U"] ["+", "-", "x", "[", "]"]
    [("E", [["E", "+", "T"], ["T"], ["E", "-", "T"]]), ("T", [["x"], ["x", "[", "E", "]"]]),
      ("U", [["U", "x"], ["E"]])] "E" none,
    by decide +kernel⟩

/-- They have a normal form, with a new variable for what follows the prefix
of the second one; sums without an end have none. -/
theorem reduce_indexedSums : indexedSums.Closed ∧ indexedSums.Loopless ∧
    (∃ r, indexedSums.reduce {} = .ok r ∧ r.rulesOf (.nonterminal "T'") =
        [epsilonBody, [.terminal "[", .nonterminal "E", .terminal "]"]] ∧
      r.removeUseless = .ok r ∧ r.leftRecursive = [] ∧ r.factorable = [] ∧
      r.reduce {} = .ok r) ∧
    endlessSums.Closed ∧ endlessSums.Loopless ∧ ¬∃ w, endlessSums.Sentence w := by
  have hclosed : indexedSums.Closed := closed_of_componentsOfNames rfl
  have hloop : indexedSums.Loopless := Components.loopless_of_all (by decide +kernel)
  have hendless : endlessSums.Loopless := Components.loopless_of_all (by decide +kernel)
  obtain ⟨-, normal⟩ := reduce_normal indexedSums hclosed hloop
  obtain ⟨refused, -⟩ := reduce_normal endlessSums endlessSums_closed hendless
  have hrules : (indexedSums.reduce {}).toOption.map (fun r => r.rulesOf (.nonterminal "T'")) =
      some [epsilonBody, [.terminal "[", .nonterminal "E", .terminal "]"]] := by decide +kernel
  have hnone : (endlessSums.reduce {}).toOption.isNone = true := by decide +kernel
  refine ⟨hclosed, hloop, ?_, endlessSums_closed, hendless, refused.mp ?_⟩
  · obtain ⟨r, hok, hbodies⟩ := exists_ok_of_toOption hrules
    exact ⟨r, hok, hbodies, normal r hok⟩
  · exact exists_error_of_isNone hnone

end PredictiveParsing.Grammar
