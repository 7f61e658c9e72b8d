import PredictiveParsing.Proofs.Reduction.PrefixRemoval

/-!
# Factored alternatives are told apart by their first symbols

All pairs of alternatives are compared, so that no prefix is found only if
every two of them start with different symbols or are both the empty string.
Left factoring ends with this for every variable. More passes than its limit
allows would change nothing.
-/

namespace PredictiveParsing

/-- Two bodies at different places of a list, the later one first, are
compared. -/
theorem mem_comparedPairs_of_sublist {earlier later : Body} {bodies : List Body}
    (h : [earlier, later].Sublist bodies) (seen : List Body) :
    (later, earlier) ∈ comparedPairs seen bodies := by
  -- a body that has been seen is compared with every body to come
  have compared : ∀ (bodies seen : List Body), earlier ∈ seen → later ∈ bodies →
      (later, earlier) ∈ comparedPairs seen bodies := by
    intro bodies
    induction bodies with
    | nil => exact fun seen _ hl => absurd hl List.not_mem_nil
    | cons body rest ih =>
      intro seen hs hl
      rw [comparedPairs, List.mem_append]
      rcases List.mem_cons.mp hl with e | hl
      · exact .inl (List.mem_map.mpr ⟨earlier, hs, by rw [e]⟩)
      · exact .inr (ih _ (List.mem_append_left _ hs) hl)
  induction bodies generalizing seen with
  | nil => cases h
  | cons body rest ih =>
    rw [comparedPairs, List.mem_append]
    cases h with
    | cons _ h => exact .inr (ih h _)
    | cons_cons _ h =>
      have hl : later ∈ rest := List.singleton_sublist.mp h
      exact .inr (compared rest _ (List.mem_append_right _ List.mem_cons_self) hl)

/-- Bodies that start with the same symbol share a prefix that is worth
factoring, unless that symbol is the empty string. -/
theorem isFactor_commonPrefix {x : Symbol} {rest others : Body} (hx : x ≠ .epsilon) :
    isFactor (commonPrefix (x :: rest) (x :: others)) = true := by
  rw [commonPrefix, if_pos rfl, isFactor, Bool.and_eq_true, bne_iff_ne]
  refine ⟨rfl, fun e => hx ?_⟩
  exact (List.cons.inj e).1

/-- Proper bodies that share no prefix worth factoring start with different
symbols or are both the empty string. -/
theorem eq_epsilonBody_of_head?_eq {first second : Body} (hfirst : first.Proper)
    (hsecond : second.Proper) (hshared : isFactor (commonPrefix first second) = false)
    (hhead : first.head? = second.head?) : first = epsilonBody ∧ second = epsilonBody := by
  cases first with
  | nil => exact absurd rfl hfirst.ne_nil
  | cons x rest =>
    cases second with
    | nil => exact absurd rfl hsecond.ne_nil
    | cons y others =>
      obtain rfl : x = y := Option.some.inj hhead
      have hx : x = .epsilon := by
        by_contra hx
        rw [isFactor_commonPrefix hx] at hshared
        cases hshared
      subst hx
      exact ⟨hfirst.epsilon_alone List.mem_cons_self, hsecond.epsilon_alone List.mem_cons_self⟩

/-- Where no prefix is found no compared pair shares one. -/
theorem not_isFactor_of_sharedPrefix?_eq_none {bodies : List Body} (h : sharedPrefix? bodies = none)
    {pair : Body × Body} (hpair : pair ∈ comparedPairs [] bodies) :
    isFactor (commonPrefix pair.1 pair.2) = false := by
  by_contra hshared
  have hnil := List.getLast?_eq_none_iff.mp h
  have hmem := List.mem_filter.mpr
    ⟨List.mem_map_of_mem (f := fun pair => commonPrefix pair.1 pair.2) hpair,
      Bool.not_eq_false _ ▸ hshared⟩
  rw [hnil] at hmem
  exact List.not_mem_nil hmem

/-- Alternatives are told apart by their first symbols, where any two of them
at different places start with different symbols or are both the empty
string. -/
def HeadsDistinct (bodies : List Body) : Prop :=
  bodies.Pairwise fun first second =>
    first.head? = second.head? → first = epsilonBody ∧ second = epsilonBody

/-- Proper alternatives without a shared prefix are told apart by their first
symbols. -/
theorem headsDistinct_of_sharedPrefix?_eq_none {bodies : List Body}
    (hp : ∀ body ∈ bodies, Body.Proper body) (h : sharedPrefix? bodies = none) :
    HeadsDistinct bodies := by
  refine List.pairwise_iff_forall_sublist.mpr ?_
  intro first second hsub hhead
  have hpair := mem_comparedPairs_of_sublist hsub []
  have hshared := not_isFactor_of_sharedPrefix?_eq_none h hpair
  rw [commonPrefix_comm] at hshared
  have hmem : ∀ body ∈ [first, second], body ∈ bodies := fun body hb => hsub.subset hb
  exact eq_epsilonBody_of_head?_eq (hp first (hmem first (by simp)))
    (hp second (hmem second (by simp))) hshared hhead

/-- The places of two alternatives that are told apart need not be in order. -/
theorem HeadsDistinct.eq_epsilonBody {bodies : List Body} (h : HeadsDistinct bodies) {i j : Nat}
    (hne : i ≠ j) {first second : Body} (hi : bodies[i]? = some first)
    (hj : bodies[j]? = some second) (hhead : first.head? = second.head?) :
    first = epsilonBody ∧ second = epsilonBody := by
  obtain ⟨hilt, rfl⟩ := List.getElem?_eq_some_iff.mp hi
  obtain ⟨hjlt, rfl⟩ := List.getElem?_eq_some_iff.mp hj
  rcases Nat.lt_or_gt_of_ne hne with hlt | hlt
  · exact List.pairwise_iff_getElem.mp h i j hilt hjlt hlt hhead
  · exact (List.pairwise_iff_getElem.mp h j i hjlt hilt hlt hhead.symm).symm

namespace Grammar

/-- Where nothing is to be factored, alternatives are told apart by their first
symbols. -/
theorem headsDistinct_of_factorable_eq_nil {g : Grammar} (h : g.factorable = []) (a : Symbol) :
    HeadsDistinct (g.rulesOf a) := by
  by_cases ha : a ∈ g.vars
  · have hnone := List.filterMap_eq_nil_iff.mp h a (mem_displayOrder.mpr ha)
    exact headsDistinct_of_sharedPrefix?_eq_none (g.valid.proper a)
      (Option.map_eq_none_iff.mp hnone)
  · have hnil : g.rulesOf a = [] :=
      List.eq_nil_iff_forall_not_mem.mpr fun body hbody => ha (mem_vars_of_mem_rulesOf hbody)
    rw [hnil]
    exact List.Pairwise.nil

/-- Passes that have left nothing to be factored are not followed by others. -/
theorem factorPasses_mono {limit more : Nat} {g h : Grammar} (hh : factorPasses limit g = .ok h)
    (hdone : h.factorable = []) (hle : limit ≤ more) : factorPasses more g = .ok h := by
  induction limit generalizing g more with
  | zero =>
    rw [Except.ok.inj hh]
    exact factorPasses_of_factorable_eq_nil hdone more
  | succ limit ih =>
    by_cases hf : g.factorable = []
    · rw [factorPasses_of_factorable_eq_nil hf] at hh ⊢
      exact hh
    · obtain ⟨more, rfl⟩ : ∃ m, more = m + 1 := ⟨more - 1, by omega⟩
      rw [factorPasses_succ hf] at hh ⊢
      obtain ⟨next, hc, hrest⟩ := exists_ok_of_bind hh
      rw [hc]
      exact ih hrest (by omega)

/-- Left factoring of a closed grammar is not refused and ends: however many
passes are allowed beyond its limit, they change nothing. In its outcome, two
alternatives of a variable at different places that start with the same symbol
are both the empty string. -/
theorem leftFactor_headsDistinct (g : Grammar) (hg : g.Closed) :
    ∃ h, g.leftFactor = .ok h ∧
      (∀ limit, g.bodySymbols < limit → factorPasses limit g = .ok h) ∧
      ∀ (a : Symbol) (i j : Nat) (first second : Body), i ≠ j →
        (h.rulesOf a)[i]? = some first → (h.rulesOf a)[j]? = some second →
        first.head? = second.head? → first = epsilonBody ∧ second = epsilonBody := by
  obtain ⟨h, hh, hdone, -⟩ := hg.exists_leftFactor
  refine ⟨h, hh, fun limit hlimit => factorPasses_mono hh hdone hlimit, ?_⟩
  intro a i j first second hne hi hj hhead
  exact (headsDistinct_of_factorable_eq_nil hdone a).eq_epsilonBody hne hi hj hhead

/-- A variable with equal alternatives, left recursion, and alternatives of
which one is a prefix of another. -/
def repeatedPrefixes : Grammar :=
  ⟨componentsOfNames ["A", "B"] ["a", "b"]
    [("A", [["A", "a"], ["a", "b"], ["a", "b"], ["a"], ["A"], [""], [""]]), ("B", [["B", "b"]])]
    "A" none, by decide +kernel⟩

/-- Factoring leaves the empty string twice where it was twice, and where two
equal alternatives leave nothing behind their prefix. -/
theorem leftFactor_repeatedPrefixes : repeatedPrefixes.Closed ∧
    ∃ h, repeatedPrefixes.leftFactor = .ok h ∧
      (h.rulesOf (.nonterminal "A")).count epsilonBody = 2 ∧
      ∀ (a : Symbol) (i j : Nat) (first second : Body), i ≠ j →
        (h.rulesOf a)[i]? = some first → (h.rulesOf a)[j]? = some second →
        first.head? = second.head? → first = epsilonBody ∧ second = epsilonBody := by
  have hclosed : repeatedPrefixes.Closed := closed_of_componentsOfNames rfl
  obtain ⟨h, hh, -, hheads⟩ := leftFactor_headsDistinct repeatedPrefixes hclosed
  have hcount : repeatedPrefixes.leftFactor.toOption.map
      (fun h => (h.rulesOf (.nonterminal "A")).count epsilonBody) = some 2 := by decide +kernel
  rw [hh] at hcount
  exact ⟨hclosed, h, hh, Option.some.inj hcount, hheads⟩

end Grammar

end PredictiveParsing
