import PredictiveParsing.Proofs.Reduction.DisplayOrder

/-!
# The names of new variables

A name is made for a new variable by adding apostrophes to that of an old one for
as long as the name is taken. There is no need for a limit: the names that are
tried differ, so that one of them is free after finitely many. It is the one with
the fewest apostrophes, but at least one.

The rewritings of the reduction make their names beside those of all variables that
there are at the moment, the ones made before included. What one rewriting adds is
put together along the row of a pass and along the passes. So at no moment of a
run, whether it ends with a grammar, with a fault or not at all, two of the
variables made so far have the same name, or one of them has the name of a variable
of the given grammar.
-/

namespace PredictiveParsing

/-! ### The search for a free name -/

/-- A number of apostrophes. -/
def apostrophes (count : Nat) : String := String.ofList (List.replicate count '\'')

/-- Apostrophes are put at the end of a name. -/
theorem primed_eq_append (count : Nat) (name : String) :
    primed count name = name ++ apostrophes count := by
  induction count generalizing name with
  | zero => simp [primed, apostrophes]
  | succ count ih =>
    have hone : "'" ++ apostrophes count = apostrophes (count + 1) := by
      rw [← String.toList_inj, String.toList_append, apostrophes, apostrophes]
      simp only [String.toList_ofList, List.replicate_succ]
      rfl
    rw [primed, ih, String.append_assoc, hone]

/-- Apostrophes are added to a name for as long as it is taken, without a limit: the
search from one name ends at another one. -/
inductive PrimesTo (taken : List String) : String → String → Prop
  /-- A free name is kept. -/
  | free {name : String} (notMem : name ∉ taken) : PrimesTo taken name name
  /-- A name that is taken gets an apostrophe, and the search goes on. -/
  | again {name last : String} (mem : name ∈ taken) (later : PrimesTo taken (name ++ "'") last) :
      PrimesTo taken name last

variable {taken : List String} {base name last other : String}

/-- The search ends at one name only. -/
theorem PrimesTo.unique (h : PrimesTo taken name last) (ho : PrimesTo taken name other) :
    other = last := by
  induction h with
  | free notMem =>
    cases ho with
    | free => rfl
    | again mem => exact absurd mem notMem
  | again mem _ ih =>
    cases ho with
    | free notMem => exact absurd mem notMem
    | again _ later => exact ih later

/-- A limited search that ends at a free name is not cut off by its limit. -/
theorem primesTo_primeUntilFree {count : Nat} (h : primeUntilFree taken count name ∉ taken) :
    PrimesTo taken name (primeUntilFree taken count name) := by
  induction count generalizing name with
  | zero => exact .free h
  | succ count ih =>
    rw [primeUntilFree] at h ⊢
    by_cases hmem : name ∈ taken
    · rw [if_pos hmem] at h ⊢
      exact .again hmem (ih h)
    · rw [if_neg hmem]
      exact .free hmem

/-- The search for a new name ends, and at this name only. -/
theorem primesTo_iff_eq_freshName :
    PrimesTo taken (base ++ "'") name ↔ name = freshName base taken := by
  have hfresh : PrimesTo taken (base ++ "'") (freshName base taken) :=
    primesTo_primeUntilFree (freshName_notMem base taken)
  exact ⟨fun h => hfresh.unique h, fun h => h ▸ hfresh⟩

/-- The new name has the least number of apostrophes, but one at least, with which it
is free. -/
theorem exists_freshName_eq_append (base : String) (taken : List String) :
    ∃ k, 1 ≤ k ∧ freshName base taken = base ++ apostrophes k ∧
      base ++ apostrophes k ∉ taken ∧ ∀ j, 1 ≤ j → j < k → base ++ apostrophes j ∈ taken := by
  obtain ⟨k, -, heq, hbefore, -⟩ := primeUntilFree_eq_primed taken taken.length (base ++ "'")
  have hshift : ∀ j, primed j (base ++ "'") = base ++ apostrophes (j + 1) :=
    fun j => primed_eq_append (j + 1) base
  have hname : freshName base taken = base ++ apostrophes (k + 1) := heq.trans (hshift k)
  refine ⟨k + 1, by omega, hname, hname ▸ freshName_notMem base taken, fun j hj hlt => ?_⟩
  obtain ⟨i, rfl⟩ := Nat.exists_eq_add_of_le' hj
  rw [← hshift]
  exact hbefore i (by omega)

/-! ### What the rewritings add -/

namespace Components

variable {c next last : Components} {made more : List (Symbol × Symbol)}

theorem mem_usedNames : name ∈ c.usedNames ↔ ∃ a ∈ c.vars, a.name = name := by
  rw [usedNames, List.mem_map]
  rfl

/-- Rewritings make variables with new names only. A list gives these variables,
each behind the one that it is made from. -/
structure AddsNames (c next : Components) (made : List (Symbol × Symbol)) : Prop where
  /-- The variables are the old ones and the new ones. -/
  mem_vars : ∀ a, a ∈ next.vars ↔ a ∈ c.vars ∨ ∃ pair ∈ made, pair.2 = a
  /-- A new variable has the name of the one that it is made from, with
  apostrophes. -/
  named : ∀ pair ∈ made, ∃ k, 1 ≤ k ∧ pair.2 = .nonterminal (pair.1.name ++ apostrophes k)
  /-- It has the name of no old variable. -/
  fresh : ∀ pair ∈ made, pair.2.name ∉ c.usedNames
  /-- No two new variables have the same name. -/
  once : (made.map fun pair => pair.2.name).Nodup

namespace AddsNames

/-- By no rewriting nothing is added. -/
theorem refl (c : Components) : AddsNames c c [] where
  mem_vars := by simp
  named := by simp
  fresh := by simp
  once := List.nodup_nil

/-- Old names stay taken, and new ones are taken from then on. -/
theorem mem_usedNames (h : AddsNames c next made) :
    name ∈ next.usedNames ↔ name ∈ c.usedNames ∨ ∃ pair ∈ made, pair.2.name = name := by
  simp only [Components.mem_usedNames, h.mem_vars]
  grind

/-- Rewritings follow each other. -/
theorem trans (h : AddsNames c next made) (h' : AddsNames next last more) :
    AddsNames c last (made ++ more) where
  mem_vars := by
    intro a
    rw [h'.mem_vars, h.mem_vars, or_assoc]
    simp only [List.mem_append, or_and_right, exists_or]
  named := List.forall_mem_append.mpr ⟨h.named, h'.named⟩
  fresh := by
    refine List.forall_mem_append.mpr ⟨h.fresh, fun pair hpair hold => ?_⟩
    exact h'.fresh pair hpair (h.mem_usedNames.mpr (.inl hold))
  once := by
    rw [List.map_append, List.nodup_append]
    refine ⟨h.once, h'.once, fun first hfirst second hsecond heq => ?_⟩
    obtain ⟨pair, hpair, rfl⟩ := List.mem_map.mp hfirst
    obtain ⟨pair', hpair', rfl⟩ := List.mem_map.mp hsecond
    exact h'.fresh pair' hpair' (h.mem_usedNames.mpr (.inr ⟨pair, hpair, heq⟩))

/-- The name that is made for a variable is one of its name with apostrophes. -/
theorem named_freshName (a : Symbol) (taken : List String) :
    ∃ k, 1 ≤ k ∧ Symbol.nonterminal (freshName a.name taken) =
      .nonterminal (a.name ++ apostrophes k) := by
  obtain ⟨k, hk, hname, -⟩ := exists_freshName_eq_append a.name taken
  exact ⟨k, hk, by rw [hname]⟩

/-- A split adds two names: the second one is made beside the first one as well. -/
theorem splitRecursion (c : Components) (a : Symbol) :
    AddsNames c (c.splitRecursion a) (c.madeBySplit a) where
  mem_vars := by
    intro b
    simp only [mem_vars_splitRecursion, madeBySplit, List.mem_cons, List.not_mem_nil, or_false,
      exists_eq_or_imp, exists_eq_left]
    grind
  named := List.forall_mem_cons.mpr
    ⟨named_freshName a _, List.forall_mem_singleton.mpr (named_freshName a _)⟩
  fresh := by
    refine List.forall_mem_cons.mpr ⟨freshName_notMem a.name c.usedNames,
      List.forall_mem_singleton.mpr fun hold => ?_⟩
    exact freshName_notMem a.name (c.splitFirst a :: c.usedNames) (List.mem_cons_of_mem _ hold)
  once := List.nodup_cons.mpr ⟨fun h => c.splitSecond_ne a (List.mem_singleton.mp h).symm,
    List.nodup_singleton _⟩

/-- A factoring adds one name. -/
theorem factorOut (c : Components) (target : Symbol × Body) :
    AddsNames c (c.factorOut target) (c.madeByFactoring target) where
  mem_vars := by
    intro b
    obtain ⟨a, factor⟩ := target
    simp only [mem_vars_factorOut, madeByFactoring, List.mem_singleton, exists_eq_left]
    grind
  named := List.forall_mem_singleton.mpr (named_freshName target.1 _)
  fresh := List.forall_mem_singleton.mpr (freshName_notMem target.1.name c.usedNames)
  once := List.nodup_singleton _

/-- A row of rewritings adds new names if each of them does. -/
theorem row {α : Type} {rewrite : Components → α → Components}
    {makes : Components → α → List (Symbol × Symbol)}
    (each : ∀ c target, AddsNames c (rewrite c target) (makes c target)) (targets : List α)
    (c : Components) :
    AddsNames c (targets.foldl rewrite c) (madeInRow rewrite makes targets c) := by
  induction targets generalizing c with
  | nil => exact refl c
  | cons target rest ih => exact (each c target).trans (ih (rewrite c target))

end AddsNames

end Components

/-! ### Runs of the stages -/

section Runs

variable {α : Type} {targets : Grammar → List α} {rewrite : Components → α → Components}
  {makes : Components → α → List (Symbol × Symbol)} {g h : Grammar} {c : Components}
  {made : List (Symbol × Symbol)}

/-- A run of rewritings from a grammar up to some moment, with the components at
this moment and the variables made so far, each behind the one that it is made
from. -/
inductive RewritesSoFar (targets : Grammar → List α) (rewrite : Components → α → Components)
    (makes : Components → α → List (Symbol × Symbol)) :
    Grammar → Components → List (Symbol × Symbol) → Prop
  /-- A part of what there is to be rewritten is rewritten. -/
  | within {g : Grammar} {row rest : List α} (targets_eq : targets g = row ++ rest) :
      RewritesSoFar targets rewrite makes g (row.foldl rewrite g.toComponents)
        (madeInRow rewrite makes row g.toComponents)
  /-- All that there is is rewritten, and the run goes on from the grammar that
  results. -/
  | pass {g next : Grammar} {c : Components} {made : List (Symbol × Symbol)}
      (found : targets g ≠ [])
      (checked : ((targets g).foldl rewrite g.toComponents).check = .ok next)
      (later : RewritesSoFar targets rewrite makes next c made) :
      RewritesSoFar targets rewrite makes g c
        (madeInRow rewrite makes (targets g) g.toComponents ++ made)

/-- At the beginning of a run nothing is rewritten. -/
theorem RewritesSoFar.start (g : Grammar) :
    RewritesSoFar targets rewrite makes g g.toComponents [] :=
  .within (List.nil_append (targets g)).symm

/-- A run adds new names if each rewriting does. -/
theorem RewritesSoFar.addsNames (hr : RewritesSoFar targets rewrite makes g c made)
    (each : ∀ c target, Components.AddsNames c (rewrite c target) (makes c target)) :
    g.toComponents.AddsNames c made := by
  induction hr with
  | within => exact .row each _ _
  | @pass g next c made _ checked _ ih =>
    have hpass := Components.AddsNames.row each (targets g) g.toComponents
    rw [← Components.check_eq_ok checked] at hpass
    exact hpass.trans ih

/-- A repetition that makes a pass as long as something is to be rewritten, at most a
given number of them, comes to its result by such a run. -/
theorem exists_rewritesSoFar {repeated : Nat → Grammar → Except GrammarFault Grammar}
    {limit : Nat} (stops : ∀ g, repeated 0 g = .ok g)
    (rests : ∀ limit g, targets g = [] → repeated limit g = .ok g)
    (goesOn : ∀ limit g, targets g ≠ [] → repeated (limit + 1) g =
      ((targets g).foldl rewrite g.toComponents).check >>= repeated limit)
    (hh : repeated limit g = .ok h) :
    ∃ made, RewritesSoFar targets rewrite makes g h.toComponents made := by
  induction limit generalizing g with
  | zero =>
    rw [stops] at hh
    exact ⟨[], Except.ok.inj hh ▸ .start g⟩
  | succ limit ih =>
    by_cases hr : targets g = []
    · rw [rests _ g hr] at hh
      exact ⟨[], Except.ok.inj hh ▸ .start g⟩
    · rw [goesOn limit g hr] at hh
      obtain ⟨next, hcheck, hrest⟩ := exists_ok_of_bind hh
      obtain ⟨made, hmade⟩ := ih hrest
      exact ⟨_, .pass hr hcheck hmade⟩

end Runs

namespace Grammar

/-- A run of the removal of left recursion up to some moment. -/
def SplitsSoFar : Grammar → Components → List (Symbol × Symbol) → Prop :=
  RewritesSoFar leftRecursive Components.splitRecursion Components.madeBySplit

/-- A run of left factoring up to some moment. -/
def FactorsSoFar : Grammar → Components → List (Symbol × Symbol) → Prop :=
  RewritesSoFar factorable Components.factorOut Components.madeByFactoring

/-- The search for a new name ends at the old name with the least number of
apostrophes, one or more, with which it is not taken. So the variables that are made
in a run of the removal of left recursion or of left factoring have names that
differ from each other and from those of all variables of the given grammar: this
holds at every moment of a run, and the variables of a result are those of the given
grammar and the ones made in the run that leads to it. -/
theorem freshName_least_and_distinct :
    (∀ (base : String) (taken : List String),
      (∀ name, PrimesTo taken (base ++ "'") name ↔ name = freshName base taken) ∧
      ∃ k, 1 ≤ k ∧ freshName base taken = base ++ apostrophes k ∧
        base ++ apostrophes k ∉ taken ∧ ∀ j, 1 ≤ j → j < k → base ++ apostrophes j ∈ taken) ∧
    ∀ g : Grammar,
      (∀ c made, SplitsSoFar g c made → g.toComponents.AddsNames c made) ∧
      (∀ c made, FactorsSoFar g c made → g.toComponents.AddsNames c made) ∧
      (∀ h, g.removeLeftRecursion = .ok h → ∃ made, SplitsSoFar g h.toComponents made) ∧
      ∀ h, g.leftFactor = .ok h → ∃ made, FactorsSoFar g h.toComponents made := by
  refine ⟨fun base taken => ⟨fun name => primesTo_iff_eq_freshName,
    exists_freshName_eq_append base taken⟩, fun g => ⟨fun c made hrun => ?_, fun c made hrun => ?_,
    fun h hh => ?_, fun h hh => ?_⟩⟩
  · exact hrun.addsNames .splitRecursion
  · exact hrun.addsNames .factorOut
  · exact exists_rewritesSoFar (fun _ => rfl)
      (fun limit _ hr => splitPasses_of_leftRecursive_eq_nil hr limit)
      (fun limit _ hr => splitPasses_succ hr limit) hh
  · exact exists_rewritesSoFar (fun _ => rfl)
      (fun limit _ hr => factorPasses_of_factorable_eq_nil hr limit)
      (fun limit _ hr => factorPasses_succ hr limit) hh

/-- An apostrophe that is taken is passed over, also where more of them are taken. Both
stages make two variables of a grammar that has such a name already. -/
theorem freshName_least_and_distinct_primedNames :
    PrimesTo ["A", "A'", "A'''"] "A'" "A''" ∧
    (∃ h made, primedNames.removeLeftRecursion = .ok h ∧
      h.vars.members.map Symbol.name = ["A", "A'", "A''", "A'''", "B", "S"] ∧
      SplitsSoFar primedNames h.toComponents made ∧
      primedNames.toComponents.AddsNames h.toComponents made) ∧
    ∃ h made, primedNames.leftFactor = .ok h ∧
      h.vars.members.map Symbol.name = ["A", "A'", "A''", "A'''", "B", "S"] ∧
      FactorsSoFar primedNames h.toComponents made ∧
      primedNames.toComponents.AddsNames h.toComponents made := by
  obtain ⟨hnames, hruns⟩ := freshName_least_and_distinct
  obtain ⟨splits, factors, split, factor⟩ := hruns primedNames
  have hs : primedNames.removeLeftRecursion.toOption.map (·.vars.members.map Symbol.name) =
      some ["A", "A'", "A''", "A'''", "B", "S"] := by decide +kernel
  have hf : primedNames.leftFactor.toOption.map (·.vars.members.map Symbol.name) =
      some ["A", "A'", "A''", "A'''", "B", "S"] := by decide +kernel
  refine ⟨((hnames "A" ["A", "A'", "A'''"]).1 "A''").mpr (by decide +kernel), ?_, ?_⟩
  · cases hok : primedNames.removeLeftRecursion with
    | error fault => rw [hok] at hs; cases hs
    | ok h =>
      rw [hok] at hs
      obtain ⟨made, hrun⟩ := split h hok
      exact ⟨h, made, rfl, Option.some.inj hs, hrun, splits _ made hrun⟩
  · cases hok : primedNames.leftFactor with
    | error fault => rw [hok] at hf; cases hf
    | ok h =>
      rw [hok] at hf
      obtain ⟨made, hrun⟩ := factor h hok
      exact ⟨h, made, rfl, Option.some.inj hf, hrun, factors _ made hrun⟩

end Grammar

end PredictiveParsing
