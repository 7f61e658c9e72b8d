import Mathlib.Logic.Relation
import PredictiveParsing.Proofs.Reduction.Factoring

/-!
# One factoring after the other

What is factored is a prefix that two alternatives of a variable share, and
whichever prefix it is, the variables generate what they did: the new
variable is read as what may follow the prefix. A factoring in a closed and
valid state of the components leaves such a state. The removal of common
prefixes is a run of such factorings, so that what one of them keeps is kept
by all.
-/

namespace PredictiveParsing

/-- It does not matter which of two bodies comes first. -/
theorem commonPrefix_comm (a b : Body) : commonPrefix a b = commonPrefix b a := by
  induction a generalizing b with
  | nil => cases b <;> rfl
  | cons x rest ih =>
    cases b with
    | nil => rfl
    | cons y others =>
      rw [commonPrefix, commonPrefix]
      by_cases h : x = y
      · rw [if_pos h, if_pos h.symm, h, ih]
      · rw [if_neg h, if_neg fun e => h e.symm]

/-- A compared pair stands at two places of the list, the second body before
the first. -/
theorem sublist_of_mem_comparedPairs {pair : Body × Body} {seen bodies : List Body}
    (h : pair ∈ comparedPairs seen bodies) : [pair.2, pair.1].Sublist (seen ++ bodies) := by
  induction bodies generalizing seen with
  | nil => exact absurd h List.not_mem_nil
  | cons body rest ih =>
    rw [comparedPairs, List.mem_append] at h
    rcases h with h | h
    · obtain ⟨earlier, hseen, he⟩ := List.mem_map.mp h
      rw [← he]
      have hbody : [body].Sublist (body :: rest) := (List.nil_sublist rest).cons_cons body
      exact (List.singleton_sublist.mpr hseen).append hbody
    · have hlater := ih h
      rwa [List.append_assoc, List.singleton_append] at hlater

/-- A prefix that is worth factoring and stands in front of at least two
bodies, which may be equal. -/
structure SharedPrefix (factor : Body) (bodies : List Body) : Prop where
  /-- It is worth factoring. -/
  worth : isFactor factor = true
  /-- Two bodies start with it. -/
  twice : 2 ≤ (suffixBodies factor bodies).length

/-- The prefix that is found for a list of bodies is shared. -/
theorem sharedPrefix_of_eq_some {bodies : List Body} {factor : Body}
    (h : sharedPrefix? bodies = some factor) : SharedPrefix factor bodies := by
  obtain ⟨hmem, hworth⟩ := List.mem_filter.mp (List.mem_of_getLast? h)
  obtain ⟨pair, hpair, he⟩ := List.mem_map.mp hmem
  have hfirst : pair.1.take factor.length = factor := by
    rw [← he]
    exact take_commonPrefix pair.1 pair.2
  have hsecond : pair.2.take factor.length = factor := by
    rw [← he, commonPrefix_comm]
    exact take_commonPrefix pair.2 pair.1
  have hboth : [pair.2, pair.1].filter (fun body => body.take factor.length == factor) =
      [pair.2, pair.1] := by
    refine List.filter_eq_self.mpr fun body hbody => beq_iff_eq.mpr ?_
    rcases List.mem_cons.mp hbody with e | hbody
    · rw [e, hsecond]
    · rw [List.mem_singleton.mp hbody, hfirst]
  have hsub : [pair.2, pair.1].Sublist bodies := sublist_of_mem_comparedPairs hpair
  have hlength := (hsub.filter fun body => body.take factor.length == factor).length_le
  rw [hboth] at hlength
  refine ⟨hworth, ?_⟩
  rw [suffixBodies, List.length_map]
  exact hlength

namespace SharedPrefix

variable {factor : Body} {bodies : List Body}

/-- A body starts with a shared prefix. -/
theorem exists_body (h : SharedPrefix factor bodies) :
    ∃ body ∈ bodies, body.take factor.length = factor := by
  have hne : suffixBodies factor bodies ≠ [] := by
    intro e
    have htwice := h.twice
    rw [e, List.length_nil] at htwice
    omega
  obtain ⟨suffix, hsuffix⟩ := List.exists_mem_of_ne_nil _ hne
  obtain ⟨whole, hmem, htake, -⟩ := mem_suffixBodies.mp hsuffix
  exact ⟨whole, hmem, htake⟩

/-- A shared prefix has a symbol. -/
theorem ne_nil (h : SharedPrefix factor bodies) : factor ≠ [] := by
  intro e
  have hworth := h.worth
  rw [e] at hworth
  cases hworth

/-- A body with a shared prefix, where it is proper, does not hold the empty
string: alone it would be no prefix worth factoring. -/
theorem epsilon_notMem (h : SharedPrefix factor bodies) {body : Body} (hp : Body.Proper body)
    (htake : body.take factor.length = factor) : .epsilon ∉ body := by
  intro he
  have hbody := hp.epsilon_alone he
  have hworth := h.worth
  rw [hbody, epsilonBody] at htake
  cases factor with
  | nil => exact h.ne_nil rfl
  | cons x rest =>
    rw [List.length_cons, List.take_succ_cons, List.take_nil] at htake
    rw [← htake] at hworth
    cases hworth

/-- Nor does the prefix, where all bodies are proper. -/
theorem epsilon_notMem_factor (h : SharedPrefix factor bodies)
    (hp : ∀ body ∈ bodies, Body.Proper body) : .epsilon ∉ factor := by
  obtain ⟨body, hbody, htake⟩ := h.exists_body
  intro he
  rw [← htake] at he
  exact h.epsilon_notMem (hp body hbody) htake (List.mem_of_mem_take he)

end SharedPrefix

/-- A body with a prefix is the prefix with the rest behind it. -/
theorem eq_append_drop {factor body : Body} (h : body.take factor.length = factor) :
    body = factor ++ body.drop factor.length := by
  have hsplit := List.take_append_drop factor.length body
  rw [h] at hsplit
  exact hsplit.symm

namespace Factored

variable {P Q : Productions} {n new : String} {factor : Body}

/-- The new variable read in the old productions, as what stands behind the
prefix. -/
def reading (P : Productions) (n new : String) (factor : Body) (a : Symbol) (w : List Symbol) :
    Prop :=
  if a = .nonterminal new then ∃ body ∈ suffixBodies factor (P (.nonterminal n)), Yields P body w
  else Yields P [a] w

/-- The new variable is read as what the rests behind the prefix yield. -/
theorem reading_new {w : List Symbol} : reading P n new factor (.nonterminal new) w ↔
    ∃ body ∈ suffixBodies factor (P (.nonterminal n)), Yields P body w := by
  rw [reading, if_pos rfl]

/-- Other symbols are read as what they yield. -/
theorem reading_of_ne {a : Symbol} {w : List Symbol} (h : a ≠ .nonterminal new) :
    reading P n new factor a w ↔ Yields P [a] w := by
  rw [reading, if_neg h]

/-- So are forms without the new variable. -/
theorem yields_of_spells_reading {form w : List Symbol} (hform : .nonterminal new ∉ form)
    (h : Spells (reading P n new factor) form w) : Yields P form w := by
  refine spells_yields.mp (h.imp fun a ha x hx => ?_)
  exact (reading_of_ne fun e => hform (e ▸ ha)).mp hx

/-- The prefix with the new variable behind it is read as what the variable
with the prefix yields. -/
theorem yields_of_spells_whole (hnew : ∀ a, ∀ body ∈ P a, .nonterminal new ∉ body)
    {w : List Symbol} (hw : Spells (reading P n new factor) (factor ++ [.nonterminal new]) w) :
    Yields P [.nonterminal n] w := by
  obtain ⟨x, y, hxy, hx, hy⟩ := spells_append.mp hw
  rw [spells_singleton, reading_new] at hy
  obtain ⟨suffix, hsuffix, hyields⟩ := hy
  obtain ⟨whole, hwhole, htake, hdrop⟩ := mem_suffixBodies.mp hsuffix
  have hfactor : .nonterminal new ∉ factor := by
    intro hmem
    rw [← htake] at hmem
    exact hnew _ _ hwhole (List.mem_of_mem_take hmem)
  rw [hdrop, yields_suffixBody] at hyields
  have hall := (yields_of_spells_reading hfactor hx).append hyields
  rw [← eq_append_drop htake, ← hxy] at hall
  exact yields_nonterminal.mpr ⟨whole, hwhole, hall⟩

/-- The reading of the new variable is closed under the new rules. -/
theorem reading_closed (h : Factored P Q n new factor) (hne : new ≠ n)
    (hnew : ∀ a, ∀ body ∈ P a, .nonterminal new ∉ body) (m : String) (body : Body)
    (hb : body ∈ Q (.nonterminal m)) (w : List Symbol)
    (hw : Spells (reading P n new factor) body w) :
    reading P n new factor (.nonterminal m) w := by
  have old : ∀ {m body}, body ∈ P (.nonterminal m) → m ≠ new →
      Spells (reading P n new factor) body w → reading P n new factor (.nonterminal m) w := by
    intro m body hb hm hw
    rw [reading_of_ne fun e => hm (Symbol.nonterminal.inj e)]
    exact yields_nonterminal.mpr ⟨body, hb, yields_of_spells_reading (hnew _ _ hb) hw⟩
  by_cases hmnew : m = new
  · rw [hmnew, h.rest] at hb
    obtain ⟨whole, hwhole, -, hbody⟩ := mem_suffixBodies.mp hb
    have hbodyNew : .nonterminal new ∉ body := by
      rw [hbody]
      intro hmem
      rcases mem_of_mem_suffixBody hmem with hmem | e
      · exact hnew _ _ hwhole hmem
      · cases e
    rw [hmnew, reading_new]
    exact ⟨body, hb, yields_of_spells_reading hbodyNew hw⟩
  by_cases hmn : m = n
  · subst hmn
    rw [h.whole, List.mem_append, List.mem_singleton] at hb
    rcases hb with hb | hb
    · exact old (mem_otherBodies.mp hb).1 hmnew hw
    · rw [reading_of_ne fun e => hne (Symbol.nonterminal.inj e).symm]
      exact yields_of_spells_whole hnew (hb ▸ hw)
  · rw [h.other m hmn hmnew] at hb
    exact old hb hmnew hw

/-- Factoring keeps what forms of old symbols yield. -/
theorem yields_iff (h : Factored P Q n new factor) (hne : new ≠ n)
    (hnew : ∀ a, ∀ body ∈ P a, .nonterminal new ∉ body) {form w : List Symbol}
    (hform : .nonterminal new ∉ form) : Yields Q form w ↔ Yields P form w := by
  constructor
  · intro hw
    have hs : Spells (reading P n new factor) form w := by
      refine hw.spells ?_ ?_ (h.reading_closed hne hnew)
      · exact yields_epsilonBody.mpr rfl
      · exact fun t => .terminal .nil
    exact yields_of_spells_reading hform hs
  · exact h.yields

/-- No symbol of an alternative is lost: it stands in an alternative of the
variable or of the new one. -/
theorem exists_body (h : Factored P Q n new factor) {x : Symbol} {body : Body}
    (hb : body ∈ P (.nonterminal n)) (hx : x ∈ body) :
    ∃ m, (m = n ∨ m = new) ∧ ∃ other ∈ Q (.nonterminal m), x ∈ other := by
  by_cases htake : body.take factor.length = factor
  · rw [eq_append_drop htake, List.mem_append] at hx
    rcases hx with hx | hx
    · refine ⟨n, .inl rfl, factor ++ [.nonterminal new], ?_, List.mem_append_left _ hx⟩
      rw [h.whole]
      exact List.mem_append_right _ List.mem_cons_self
    · refine ⟨new, .inr rfl, suffixBody factor body, ?_, ?_⟩
      · rw [h.rest]
        exact mem_suffixBodies.mpr ⟨body, hb, htake, rfl⟩
      · unfold suffixBody
        split
        · next hnil =>
          rw [hnil] at hx
          exact absurd hx List.not_mem_nil
        · exact hx
  · refine ⟨n, .inl rfl, body, ?_, hx⟩
    rw [h.whole]
    exact List.mem_append_left _ (mem_otherBodies.mpr ⟨hb, htake⟩)

end Factored

namespace Components

/-- The variable that takes the rests is not the one that is factored. -/
theorem Closed.factorName_ne {c : Components} {n : String} (hn : .nonterminal n ∈ c.vars) :
    c.factorName (.nonterminal n) ≠ n :=
  fun e => c.factorName_notMem (.nonterminal n) (e.symm ▸ hn)

/-- Factoring a prefix of closed components keeps what the variables
yield. -/
theorem Closed.yields_factorOut {c : Components} (h : c.Closed) {n : String}
    (hn : .nonterminal n ∈ c.vars) (factor : Body) {a : Symbol} (ha : a ∈ c.vars)
    (w : List Symbol) :
    Yields (c.factorOut (.nonterminal n, factor)).rulesOf [a] w ↔ Yields c.rulesOf [a] w := by
  have hnew := c.factorName_notMem (.nonterminal n)
  refine (h.factored hn factor).yields_iff (Closed.factorName_ne hn)
    (fun b body hb => h.notMem_body hnew hb) ?_
  exact fun hmem => hnew (List.mem_singleton.mp hmem ▸ ha)

/-- Factoring a shared prefix keeps components valid. -/
theorem Valid.factorOut {c : Components} (h : c.Valid) {a : Symbol} (ha : a ∈ c.vars)
    {factor : Body} (hs : SharedPrefix factor (c.rulesOf a)) : (c.factorOut (a, factor)).Valid := by
  obtain ⟨body, hbody, htake⟩ := hs.exists_body
  have hfactor := hs.epsilon_notMem_factor (h.proper a)
  have hwhole : Body.Proper (factor ++ [.nonterminal (c.factorName a)]) := by
    refine ⟨List.append_ne_nil_of_right_ne_nil _ (List.cons_ne_nil _ _), fun he => ?_⟩
    rw [List.mem_append, List.mem_singleton] at he
    rcases he with he | e
    · exact absurd he hfactor
    · cases e
  have hbodies : ∀ other ∈ otherBodies factor (c.rulesOf a) ++
      [factor ++ [.nonterminal (c.factorName a)]], Body.Proper other := by
    intro other ho
    rw [List.mem_append, List.mem_singleton] at ho
    rcases ho with ho | e
    · exact h.proper a other (mem_otherBodies.mp ho).1
    · rw [e]
      exact hwhole
  have hsuffixes : ∀ suffix ∈ suffixBodies factor (c.rulesOf a), Body.Proper suffix := by
    intro suffix hmem
    obtain ⟨whole, hwhole, htake, hsuffix⟩ := mem_suffixBodies.mp hmem
    rw [hsuffix, suffixBody]
    split
    · exact proper_epsilonBody
    · next hne =>
      refine ⟨hne, fun he => ?_⟩
      exact absurd (List.mem_of_mem_drop he) (hs.epsilon_notMem (h.proper a whole hwhole) htake)
  have hne : suffixBodies factor (c.rulesOf a) ≠ [] :=
    List.ne_nil_of_mem (mem_suffixBodies.mpr ⟨body, hbody, htake, rfl⟩)
  have hset := h.setRules ha (List.append_ne_nil_of_right_ne_nil _ (List.cons_ne_nil _ _)) hbodies
  exact hset.addVariable (c.factorName_notMem a) hne hsuffixes

/-- Components one of whose variables has a shared prefix, and the components
where it is factored. -/
inductive FactorStep : Components → Components → Prop
  /-- Any shared prefix of any variable may be factored. -/
  | factor {c : Components} {a : Symbol} {factor : Body} (mem : a ∈ c.vars)
      (shared : SharedPrefix factor (c.rulesOf a)) : FactorStep c (c.factorOut (a, factor))

/-- Any number of factorings. -/
def FactorSteps : Components → Components → Prop := Relation.ReflTransGen FactorStep

end Components

/-- A pass is a run of factorings. -/
theorem FactoringPass.steps {g : Grammar} {todo : List (Symbol × Body)} {c : Components}
    (h : FactoringPass g todo c) (hold : ∀ t ∈ todo, t ∈ g.factorable)
    (hn : (todo.map Prod.fst).Nodup) :
    Components.FactorSteps c (todo.foldl Components.factorOut c) := by
  induction todo generalizing c with
  | nil => exact .refl
  | cons target rest ih =>
    obtain ⟨ha, hrest⟩ := List.nodup_cons.mp hn
    obtain ⟨a, -, hs⟩ := List.mem_filterMap.mp (hold _ List.mem_cons_self)
    obtain ⟨factor, hfactor, htarget⟩ := Option.map_eq_some_iff.mp hs
    have hvar := (Grammar.of_mem_factorable (hold _ List.mem_cons_self)).1
    have hpending := h.pending _ List.mem_cons_self
    have hlater := ih (h.step hold ha) (fun t ht => hold t (List.mem_cons_of_mem _ ht)) hrest
    subst htarget
    have hshared := sharedPrefix_of_eq_some hfactor
    rw [← hpending] at hshared
    exact .head (.factor (h.kept a hvar) hshared) hlater

/-- The targets of a grammar are factored by a run of factorings. -/
theorem Grammar.Closed.factorSteps {g : Grammar} (hg : g.Closed) :
    Components.FactorSteps g.toComponents (g.factorable.foldl Components.factorOut g.toComponents) :=
  FactoringPass.steps ⟨hg.components, fun _ ha => ha, fun _ _ => rfl⟩ (fun _ ht => ht)
    g.nodup_factorable

end PredictiveParsing
