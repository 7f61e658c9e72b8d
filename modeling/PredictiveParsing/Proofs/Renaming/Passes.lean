import PredictiveParsing.Proofs.Reduction.Stages
import PredictiveParsing.Proofs.Renaming.Symbols

/-!
# Passes that make new variables

A pass of the reduction goes through some variables in display order, gives
each of them new alternatives and puts new variables beside it. What becomes
of a variable depends on its alternatives and on the new symbols only, so that
the outcome of the pass can be described without the order: it refits all
variables at once, with new symbols that differ from each other and from the
old variables. Two such outcomes for grammars that a renaming carries to each
other are carried to each other by an extension of the renaming, as long as
the new alternatives are made without looking at names.
-/

namespace PredictiveParsing

open Renaming

/-- The alternatives that a pass gives to a variable and to the new symbols
beside it, one after the other, from the symbols and the old alternatives. -/
abbrev Remake := Symbol → List Symbol → List Body → List (List Body)

/-- Alternatives are made without looking at names. -/
def Remake.Nameless (remake : Remake) : Prop :=
  ∀ (σ : Renaming) a new bodies, remake (σ a) (new.map σ) (bodies.map σ.body) =
    (remake a new bodies).map (List.map σ.body)

/-- Components where some variables are refitted and have a number of new
symbols each beside them. -/
structure Refitted (remake : Remake) (count : Nat) (c : Components) (new : Symbol → List Symbol)
    (targets : List Symbol) (d : Components) : Prop where
  /-- The start symbol stays. -/
  start : d.start = c.start
  /-- The new symbols become variables. -/
  vars : ∀ b, b ∈ d.vars ↔ b ∈ c.vars ∨ ∃ a ∈ targets, b ∈ new a
  /-- The targets and the new symbols have the alternatives that are made. -/
  made : ∀ a ∈ targets, (a :: new a).map d.rulesOf = remake a (new a) (c.rulesOf a)
  /-- Other variables have their old alternatives. -/
  kept : ∀ b ∈ c.vars, b ∉ targets → d.rulesOf b = c.rulesOf b
  /-- Each target has as many new symbols. -/
  length : ∀ a ∈ targets, (new a).length = count
  /-- New symbols are nonterminals and were no variables. -/
  fresh : ∀ a ∈ targets, ∀ b ∈ new a, b.isNonterminal = true ∧ b ∉ c.vars
  /-- New symbols differ. -/
  nodup : (targets.flatMap new).Nodup

variable {remake : Remake} {count : Nat} {c d : Components} {targets : List Symbol}

/-- A pass over no variable changes nothing. -/
theorem Refitted.nil (c : Components) : Refitted remake count c (fun _ => []) [] c where
  start := rfl
  vars := fun _ => ⟨.inl, fun h =>
    h.elim (fun hb => hb) fun ⟨_, ha, _⟩ => absurd ha List.not_mem_nil⟩
  made := fun _ ha => absurd ha List.not_mem_nil
  kept := fun _ _ _ => rfl
  length := fun _ ha => absurd ha List.not_mem_nil
  fresh := fun _ ha => absurd ha List.not_mem_nil
  nodup := List.nodup_nil

/-- A pass refits one variable first and the others then. -/
theorem Refitted.cons {mid : Components} {first rest : Symbol → List Symbol} {a : Symbol}
    (h : Refitted remake count c first [a] mid) (h' : Refitted remake count mid rest targets d)
    (ha : a ∈ c.vars) (hold : ∀ b ∈ targets, b ∈ c.vars) (hn : a ∉ targets) :
    ∃ new, Refitted remake count c new (a :: targets) d := by
  have hvars : ∀ b, b ∈ mid.vars ↔ b ∈ c.vars ∨ b ∈ first a := by
    intro b
    rw [h.vars]
    exact or_congr_right ⟨fun ⟨_, he, hb⟩ => List.mem_singleton.mp he ▸ hb,
      fun hb => ⟨a, List.mem_cons_self, hb⟩⟩
  let new : Symbol → List Symbol := fun b => if b = a then first a else rest b
  have hnew : new a = first a := if_pos rfl
  have hother : ∀ b ∈ targets, new b = rest b := fun b hb =>
    if_neg fun e : b = a => hn (e ▸ hb)
  have hapart : ∀ b ∈ first a, b ∉ targets := fun b hb ht =>
    (h.fresh a List.mem_cons_self b hb).2 (hold b ht)
  have hflat : (a :: targets).flatMap new = first a ++ targets.flatMap rest := by
    rw [List.flatMap_cons, hnew, List.flatMap_congr hother]
  refine ⟨new, h'.start.trans h.start, fun b => ?_, fun b hb => ?_, fun b hb ht => ?_,
    fun b hb => ?_, fun b hb x hx => ?_, ?_⟩
  · rw [h'.vars, hvars, List.exists_mem_cons_iff, hnew, or_assoc]
    refine or_congr_right (or_congr_right ?_)
    exact exists_congr fun e => and_congr_right fun he => by rw [hother e he]
  · rcases List.mem_cons.mp hb with rfl | hb
    · rw [hnew, ← h.made b List.mem_cons_self]
      -- what was made first is not touched later
      refine List.map_congr_left fun x hx => ?_
      rcases List.mem_cons.mp hx with rfl | hx
      · exact h'.kept x ((hvars x).mpr (.inl ha)) hn
      · exact h'.kept x ((hvars x).mpr (.inr hx)) (hapart x hx)
    · have hba : b ∉ [a] := fun e => hn (List.mem_singleton.mp e ▸ hb)
      rw [hother b hb, h'.made b hb, h.kept b (hold b hb) hba]
  · obtain ⟨hba, ht⟩ := not_or.mp fun h => ht (List.mem_cons.mpr h)
    rw [h'.kept b ((hvars b).mpr (.inl hb)) ht]
    exact h.kept b hb fun e => hba (List.mem_singleton.mp e)
  · rcases List.mem_cons.mp hb with rfl | hb
    · rw [hnew]
      exact h.length b List.mem_cons_self
    · rw [hother b hb]
      exact h'.length b hb
  · rcases List.mem_cons.mp hb with rfl | hb
    · rw [hnew] at hx
      exact h.fresh b List.mem_cons_self x hx
    · rw [hother b hb] at hx
      obtain ⟨hk, hmid⟩ := h'.fresh b hb x hx
      exact ⟨hk, fun hc => hmid ((hvars x).mpr (.inl hc))⟩
  · have hfirst : (first a).Nodup := by
      have hn := h.nodup
      rwa [List.flatMap_cons, List.flatMap_nil, List.append_nil] at hn
    rw [hflat]
    refine hfirst.append h'.nodup fun x hx hx' => ?_
    obtain ⟨b, hb, hx'⟩ := List.mem_flatMap.mp hx'
    exact (h'.fresh b hb x hx').2 ((hvars x).mpr (.inr hx))

/-- A pass whose steps refit the variable that is due refits all variables. -/
theorem exists_refitted {τ : Type} {step : Components → τ → Components} {key : τ → Symbol}
    {due : List Body → τ → Prop}
    (hstep : ∀ c t, key t ∈ c.vars → due (c.rulesOf (key t)) t →
      ∃ new, Refitted remake count c new [key t] (step c t))
    (todo : List τ) (c : Components) (hn : (todo.map key).Nodup)
    (hdue : ∀ t ∈ todo, key t ∈ c.vars ∧ due (c.rulesOf (key t)) t) :
    ∃ new, Refitted remake count c new (todo.map key) (todo.foldl step c) := by
  induction todo generalizing c with
  | nil => exact ⟨_, .nil c⟩
  | cons t rest ih =>
    obtain ⟨ht, hrest⟩ := List.nodup_cons.mp hn
    obtain ⟨hkey, hnow⟩ := hdue t List.mem_cons_self
    obtain ⟨first, hfirst⟩ := hstep c t hkey hnow
    have hold : ∀ b ∈ rest.map key, b ∈ c.vars := by
      intro b hb
      obtain ⟨u, hu, rfl⟩ := List.mem_map.mp hb
      exact (hdue u (List.mem_cons_of_mem _ hu)).1
    obtain ⟨later, hlater⟩ := ih (step c t) hrest fun u hu => by
      obtain ⟨hvar, hu'⟩ := hdue u (List.mem_cons_of_mem _ hu)
      have hne : key u ∉ [key t] := fun e =>
        ht (List.mem_singleton.mp e ▸ List.mem_map_of_mem hu)
      refine ⟨(hfirst.vars _).mpr (.inl hvar), ?_⟩
      rw [hfirst.kept _ hvar hne]
      exact hu'
    exact hfirst.cons hlater hkey hold ht

/-- Lists of the same length are paired without loss. -/
theorem map_eq_of_zip {τ : Renaming} {l m : List Symbol} (hl : l.length = m.length)
    (h : ∀ pair ∈ l.zip m, τ pair.1 = pair.2) : l.map τ = m := by
  have hpairs : (l.zip m).map (τ ∘ Prod.fst) = (l.zip m).map Prod.snd := List.map_congr_left h
  rw [← List.map_map, List.map_fst_zip (Nat.le_of_eq hl),
    List.map_snd_zip (Nat.le_of_eq hl.symm)] at hpairs
  exact hpairs

/-- A renaming that carries components to others is extended to one that
carries a refitted version of the ones to one of the others, whatever new
symbols they have got. -/
theorem Refitted.exists_carries {σ : Renaming} {c' d' : Components} {targets' : List Symbol}
    {new new' : Symbol → List Symbol} (h : Refitted remake count c new targets c')
    (h' : Refitted remake count d new' targets' d') (hremake : remake.Nameless)
    (hσ : σ.Carries c d) (hc : c.Closed) (hc' : c'.Closed) (hd' : d'.Closed)
    (hstart : c.start ∈ c.vars) (hold : ∀ a ∈ targets, a ∈ c.vars) (hn : targets.Nodup)
    (hn' : targets'.Nodup) (htargets : ∀ a, σ a ∈ targets' ↔ a ∈ targets) :
    ∃ τ : Renaming, (∀ a ∈ c.vars, τ a = σ a) ∧ τ.Carries c' d' := by
  have hperm : (targets.map σ).Perm targets' := by
    refine (List.perm_ext_iff_of_nodup (hn.map σ.injective) hn').mpr fun b => ?_
    obtain ⟨a, rfl⟩ := σ.exists_apply_eq b
    rw [List.mem_map_of_injective σ.injective, htargets]
  have hlength : ∀ a ∈ targets, (new a).length = (new' (σ a)).length := fun a ha =>
    (h.length a ha).trans (h'.length (σ a) ((htargets a).mpr ha)).symm
  let pairs := targets.flatMap fun a => (new a).zip (new' (σ a))
  have hfirst : pairs.map Prod.fst = targets.flatMap new := by
    rw [List.map_flatMap]
    exact List.flatMap_congr fun a ha => List.map_fst_zip (Nat.le_of_eq (hlength a ha))
  have hsecond : pairs.map Prod.snd = (targets.map σ).flatMap new' := by
    rw [List.map_flatMap, List.flatMap_map]
    exact List.flatMap_congr fun a ha => List.map_snd_zip (Nat.le_of_eq (hlength a ha).symm)
  have hpair : ∀ pair ∈ pairs, (pair.1.isNonterminal = true ∧ pair.1 ∉ c.vars) ∧
      pair.2.isNonterminal = true ∧ pair.2 ∉ d.vars := by
    intro pair hpair
    obtain ⟨a, ha, hzip⟩ := List.mem_flatMap.mp hpair
    obtain ⟨h₁, h₂⟩ := List.of_mem_zip hzip
    exact ⟨h.fresh a ha _ h₁, h'.fresh (σ a) ((htargets a).mpr ha) _ h₂⟩
  obtain ⟨τ, hτ, hpairs⟩ := σ.exists_extension (· ∈ c.vars) pairs
    (fun p hp => ⟨(hpair p hp).1.1, (hpair p hp).2.1⟩) (hfirst ▸ h.nodup)
    (hsecond ▸ (hperm.flatMap_right new').nodup_iff.mpr h'.nodup)
    (fun p hp => (hpair p hp).1.2)
    fun p hp a ha e => (hpair p hp).2.2 (e ▸ (hσ.vars a).mpr ha)
  have hnew : ∀ a ∈ targets, (new a).map τ = new' (σ a) := fun a ha =>
    map_eq_of_zip (hlength a ha) fun p hp => hpairs p (List.mem_flatMap.mpr ⟨a, ha, hp⟩)
  have hbodies : ∀ a, (c.rulesOf a).map τ.body = (c.rulesOf a).map σ.body := fun a =>
    List.map_congr_left fun l hl => body_congr fun x hx hk =>
      hτ x (hc.body_declared a l hl x hx hk)
  have hvars : ∀ b, τ b ∈ d'.vars ↔ b ∈ c'.vars := by
    intro b
    rw [h'.vars, h.vars]
    refine or_congr ⟨fun hb => ?_, fun hb => ?_⟩ ⟨fun hb => ?_, fun ⟨a, ha, hb⟩ => ?_⟩
    · -- what became a variable before is the same symbol
      obtain ⟨a, ha⟩ := σ.exists_apply_eq (τ b)
      have hmem : a ∈ c.vars := (hσ.vars a).mp (ha ▸ hb)
      rw [← hτ a hmem] at ha
      exact τ.injective ha ▸ hmem
    · rw [hτ b hb]
      exact (hσ.vars b).mpr hb
    · obtain ⟨a', ha', hb⟩ := hb
      obtain ⟨a, rfl⟩ := σ.exists_apply_eq a'
      have ha := (htargets a).mp ha'
      rw [← hnew a ha, List.mem_map_of_injective τ.injective] at hb
      exact ⟨a, ha, hb⟩
    · refine ⟨σ a, (htargets a).mpr ha, ?_⟩
      rw [← hnew a ha]
      exact List.mem_map_of_mem hb
  have hmade : ∀ a ∈ targets, ∀ x ∈ a :: new a,
      d'.rulesOf (τ x) = (c'.rulesOf x).map τ.body := by
    intro a ha
    have hlists := h'.made (σ a) ((htargets a).mpr ha)
    rw [hσ.rules, ← hbodies, ← hnew a ha, ← hτ a (hold a ha), hremake, ← h.made a ha,
      ← List.map_cons, List.map_map, List.map_map] at hlists
    exact fun x hx => List.map_inj_left.mp hlists x hx
  refine ⟨τ, hτ, ?_, hvars, fun b => ?_⟩
  · rw [h'.start, h.start, hσ.start, hτ _ hstart]
  · by_cases hvar : b ∈ c'.vars
    · rcases (h.vars b).mp hvar with hb | ⟨a, ha, hb⟩
      · by_cases ht : b ∈ targets
        · exact hmade b ht b List.mem_cons_self
        · rw [h.kept b hb ht, hbodies, hτ b hb,
            h'.kept (σ b) ((hσ.vars b).mpr hb) fun hm => ht ((htargets b).mp hm), hσ.rules]
      · exact hmade a ha b (List.mem_cons_of_mem _ hb)
    · rw [hc'.rulesOf_eq_nil hvar, hd'.rulesOf_eq_nil fun hm => hvar ((hvars b).mp hm)]
      rfl

/-- How a variable is split: the two new symbols, the alternatives without
recursion, and what follows the recursion. -/
def splitRemake : Remake := fun a new bodies =>
  match new with
  | [first, second] =>
    [[[first, second]], baseBodies a bodies, tailBodies a second bodies ++ [epsilonBody]]
  | _ => []

/-- How a shared prefix of alternatives is factored. -/
def factorRemake : Remake := fun _ new bodies =>
  match sharedPrefix? bodies with
  | some factor => [otherBodies factor bodies ++ [factor ++ new], suffixBodies factor bodies]
  | none => []

section Names

variable (σ : Renaming)

/-- A renamed body starts with a renamed symbol if the body starts with the
symbol. -/
theorem head?_body (a : Symbol) (l : Body) : (σ.body l).head? = some (σ a) ↔ l.head? = some a := by
  rw [body, List.head?_map, ← Option.map_some, (Option.map_injective σ.injective).eq_iff]

/-- The alternatives without recursion are found without looking at names. -/
theorem baseBodies_map (a : Symbol) (bodies : List Body) :
    baseBodies (σ a) (bodies.map σ.body) = (baseBodies a bodies).map σ.body := by
  rw [baseBodies, baseBodies, List.filter_map]
  refine congrArg (List.map σ.body) (List.filter_congr fun l _ => ?_)
  rw [Function.comp_apply, Bool.eq_iff_iff, bne_iff_ne, bne_iff_ne]
  exact not_congr (head?_body σ a l)

/-- What follows the recursion is found without looking at names. -/
theorem tailBodies_map (a last : Symbol) (bodies : List Body) :
    tailBodies (σ a) (σ last) (bodies.map σ.body) = (tailBodies a last bodies).map σ.body := by
  rw [tailBodies, tailBodies, List.filterMap_map, List.map_filterMap]
  refine List.filterMap_congr fun l _ => ?_
  cases l with
  | nil => rfl
  | cons x rest =>
    rw [Function.comp_apply, body_cons]
    dsimp only
    by_cases hx : x = a
    · rw [if_pos hx, if_pos (congrArg σ hx), Option.map_some]
      exact congrArg some (σ.body_append rest [last]).symm
    · rw [if_neg hx, if_neg fun e => hx (σ.injective e), Option.map_none]

/-- Common prefixes are found without looking at names. -/
theorem commonPrefix_map (l m : Body) :
    commonPrefix (σ.body l) (σ.body m) = σ.body (commonPrefix l m) := by
  induction l generalizing m with
  | nil => rfl
  | cons a rest ih =>
    cases m with
    | nil => rfl
    | cons b others =>
      rw [body_cons, body_cons, commonPrefix, commonPrefix]
      by_cases h : a = b
      · rw [if_pos h, if_pos (congrArg σ h), ih, body_cons]
      · rw [if_neg h, if_neg fun e => h (σ.injective e), body_nil]

/-- Renamed bodies are compared as the bodies are. -/
theorem comparedPairs_map (seen bodies : List Body) :
    comparedPairs (seen.map σ.body) (bodies.map σ.body) =
      (comparedPairs seen bodies).map (Prod.map σ.body σ.body) := by
  induction bodies generalizing seen with
  | nil => rfl
  | cons l rest ih =>
    have hseen : seen.map σ.body ++ [σ.body l] = (seen ++ [l]).map σ.body := by
      rw [List.map_append, List.map_singleton]
    rw [List.map_cons, comparedPairs, comparedPairs, hseen, ih, List.map_append, List.map_map,
      List.map_map]
    rfl

/-- A renamed body is a factor if the body is. -/
theorem isFactor_map (l : Body) : isFactor (σ.body l) = isFactor l := by
  rw [isFactor, isFactor, body, List.isEmpty_map, ← body, Bool.eq_iff_iff, Bool.and_eq_true,
    Bool.and_eq_true, bne_iff_ne, bne_iff_ne, ne_eq, ne_eq, body_eq_epsilonBody]

/-- The shared prefix is found without looking at names. -/
theorem sharedPrefix?_map (bodies : List Body) :
    sharedPrefix? (bodies.map σ.body) = (sharedPrefix? bodies).map σ.body := by
  have hpairs := comparedPairs_map σ [] bodies
  have hprefixes : (comparedPairs [] bodies).map
      ((fun pair => commonPrefix pair.1 pair.2) ∘ Prod.map σ.body σ.body) =
      ((comparedPairs [] bodies).map fun pair => commonPrefix pair.1 pair.2).map σ.body := by
    rw [List.map_map]
    exact List.map_congr_left fun pair _ => commonPrefix_map σ pair.1 pair.2
  have hfactor : isFactor ∘ σ.body = isFactor := funext (isFactor_map σ)
  rw [List.map_nil] at hpairs
  rw [sharedPrefix?, sharedPrefix?, hpairs, List.map_map, hprefixes, List.filter_map, hfactor,
    List.getLast?_map]

/-- Whether a body starts with a prefix does not depend on names. -/
theorem take_body_eq_iff (factor l : Body) :
    (σ.body l).take (σ.body factor).length = σ.body factor ↔ l.take factor.length = factor := by
  rw [length_body, ← body_take, body_inj]

/-- The other alternatives are found without looking at names. -/
theorem otherBodies_map (factor : Body) (bodies : List Body) :
    otherBodies (σ.body factor) (bodies.map σ.body) = (otherBodies factor bodies).map σ.body := by
  rw [otherBodies, otherBodies, List.filter_map]
  refine congrArg (List.map σ.body) (List.filter_congr fun l _ => ?_)
  rw [Function.comp_apply, Bool.eq_iff_iff, bne_iff_ne, bne_iff_ne]
  exact not_congr (take_body_eq_iff σ factor l)

/-- What follows a prefix in one body is found without looking at names. -/
theorem suffixBody_map (factor l : Body) :
    suffixBody (σ.body factor) (σ.body l) = σ.body (suffixBody factor l) := by
  rw [suffixBody, suffixBody, length_body, ← body_drop]
  cases l.drop factor.length with
  | nil => rfl
  | cons x rest => rfl

/-- What follows a prefix is found without looking at names. -/
theorem suffixBodies_map (factor : Body) (bodies : List Body) :
    suffixBodies (σ.body factor) (bodies.map σ.body) = (suffixBodies factor bodies).map σ.body := by
  have hwith : ∀ (factor : Body) (bodies : List Body), suffixBodies factor bodies =
      (bodies.filter fun l => l.take factor.length == factor).map (suffixBody factor) :=
    fun _ _ => rfl
  have hsuffix : suffixBody (σ.body factor) ∘ σ.body = σ.body ∘ suffixBody factor :=
    funext (suffixBody_map σ factor)
  rw [hwith, hwith, List.filter_map, List.map_map, List.map_map, hsuffix]
  refine congrArg (List.map _) (List.filter_congr fun l _ => ?_)
  rw [Function.comp_apply, Bool.eq_iff_iff, beq_iff_eq, beq_iff_eq]
  exact take_body_eq_iff σ factor l

end Names

/-- Variables are split without looking at names. -/
theorem splitRemake_nameless : splitRemake.Nameless := by
  intro σ a new bodies
  match new with
  | [first, second] =>
    have hbase := baseBodies_map σ a bodies
    have htail := tailBodies_map σ a second bodies
    simp only [splitRemake, List.map_cons, List.map_nil, hbase, htail, List.map_append]
    rfl
  | [] => rfl
  | [_] => rfl
  | _ :: _ :: _ :: _ => rfl

/-- Prefixes are factored without looking at names. -/
theorem factorRemake_nameless : factorRemake.Nameless := by
  intro σ a new bodies
  rw [factorRemake, factorRemake, sharedPrefix?_map]
  cases sharedPrefix? bodies with
  | none => rfl
  | some factor =>
    have hother := otherBodies_map σ factor bodies
    have hsuffix := suffixBodies_map σ factor bodies
    simp only [Option.map_some, List.map_cons, List.map_nil, List.map_append, hother, hsuffix,
      body_append]
    rfl

/-- Splitting a variable refits it. -/
theorem refitted_splitRecursion (c : Components) (a : Symbol) (ha : a ∈ c.vars) :
    ∃ new, Refitted splitRemake 2 c new [a] (c.splitRecursion a) := by
  have hu := c.splitFirst_notMem a
  have hv := c.splitSecond_notMem a
  have hne : Symbol.nonterminal (c.splitSecond a) ≠ .nonterminal (c.splitFirst a) :=
    fun e => c.splitSecond_ne a (Symbol.nonterminal.inj e)
  have hua : Symbol.nonterminal (c.splitFirst a) ≠ a := (ne_of_mem_of_not_mem ha hu).symm
  have hva : Symbol.nonterminal (c.splitSecond a) ≠ a := (ne_of_mem_of_not_mem ha hv).symm
  refine ⟨fun _ => [.nonterminal (c.splitFirst a), .nonterminal (c.splitSecond a)], rfl,
    fun b => ?_, fun b hb => ?_, fun b hb ht => ?_, fun _ _ => rfl, fun b hb x hx => ?_, ?_⟩
  · rw [Components.mem_vars_splitRecursion]
    simp only [List.mem_cons, List.not_mem_nil, or_false, exists_eq_left]
    tauto
  · rw [List.mem_singleton.mp hb]
    simp only [List.map_cons, List.map_nil, Components.rulesOf_splitRecursion, splitRemake,
      if_neg hne, if_neg hua, if_neg hva, if_true]
  · have hba : a ≠ b := fun e => ht (List.mem_singleton.mpr e.symm)
    have hbu : Symbol.nonterminal (c.splitFirst a) ≠ b := (ne_of_mem_of_not_mem hb hu).symm
    have hbv : Symbol.nonterminal (c.splitSecond a) ≠ b := (ne_of_mem_of_not_mem hb hv).symm
    rw [Components.rulesOf_splitRecursion, if_neg hbv, if_neg hbu, if_neg hba]
  · rcases List.mem_cons.mp hx with rfl | hx
    · exact ⟨rfl, hu⟩
    · rw [List.mem_singleton.mp hx]
      exact ⟨rfl, hv⟩
  · rw [List.flatMap_cons, List.flatMap_nil, List.append_nil]
    exact List.nodup_cons.mpr ⟨fun h => hne (List.mem_singleton.mp h).symm, List.nodup_singleton _⟩

/-- Factoring a variable refits it. -/
theorem refitted_factorOut (c : Components) (target : Symbol × Body) (ha : target.1 ∈ c.vars)
    (hfactor : sharedPrefix? (c.rulesOf target.1) = some target.2) :
    ∃ new, Refitted factorRemake 1 c new [target.1] (c.factorOut target) := by
  obtain ⟨a, factor⟩ := target
  have hnew := c.factorName_notMem a
  have hne : Symbol.nonterminal (c.factorName a) ≠ a := (ne_of_mem_of_not_mem ha hnew).symm
  refine ⟨fun _ => [.nonterminal (c.factorName a)], rfl, fun b => ?_, fun b hb => ?_,
    fun b hb ht => ?_, fun _ _ => rfl, fun b hb x hx => ?_, ?_⟩
  · rw [Components.mem_vars_factorOut]
    simp only [List.mem_singleton, exists_eq_left]
    exact or_comm
  · rw [List.mem_singleton.mp hb, factorRemake, hfactor]
    simp only [List.map_cons, List.map_nil, Components.rulesOf_factorOut, if_neg hne, if_true]
  · have hba : a ≠ b := fun e => ht (List.mem_singleton.mpr e.symm)
    have hbn : Symbol.nonterminal (c.factorName a) ≠ b := (ne_of_mem_of_not_mem hb hnew).symm
    rw [Components.rulesOf_factorOut, if_neg hbn, if_neg hba]
  · rw [List.mem_singleton.mp hx]
    exact ⟨rfl, hnew⟩
  · rw [List.flatMap_cons, List.flatMap_nil, List.append_nil]
    exact List.nodup_singleton _

end PredictiveParsing
