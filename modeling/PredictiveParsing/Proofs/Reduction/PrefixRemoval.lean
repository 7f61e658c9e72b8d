import PredictiveParsing.Proofs.Grammar.Names
import PredictiveParsing.Proofs.Reduction.SharedPrefix

/-!
# The removal of common prefixes

Factoring a prefix that stands in front of two alternatives saves at least
one copy of it and adds one new variable, so that all bodies together do not
get longer. A new variable stands in a body and goes on standing in one. So
there are never more new variables than symbols in the bodies of the grammar
one began with, and the passes end within their limit with nothing left to be
factored. No pass is refused, and every variable of the grammar generates the
strings that it generated before.
-/

namespace PredictiveParsing

/-- The number of symbols in some bodies, the empty string aside. -/
def spelledSize (bodies : List Body) : Nat := (bodies.flatMap Body.spelled).length

/-- Two parts of a body are spelled one after the other. -/
theorem Body.spelled_append (left right : Body) :
    Body.spelled (left ++ right) = Body.spelled left ++ Body.spelled right :=
  List.filter_append left right

@[simp] theorem spelledSize_nil : spelledSize [] = 0 := rfl

@[simp] theorem spelledSize_cons (body : Body) (bodies : List Body) :
    spelledSize (body :: bodies) = (Body.spelled body).length + spelledSize bodies := by
  rw [spelledSize, List.flatMap_cons, List.length_append, spelledSize]

@[simp] theorem spelledSize_append (bodies others : List Body) :
    spelledSize (bodies ++ others) = spelledSize bodies + spelledSize others := by
  rw [spelledSize, List.flatMap_append, List.length_append, spelledSize, spelledSize]

/-- What is left of a body is spelled as the rest behind the prefix. -/
theorem spelled_suffixBody (factor body : Body) :
    Body.spelled (suffixBody factor body) = Body.spelled (body.drop factor.length) := by
  unfold suffixBody
  split
  · next h => rw [h]; rfl
  · rfl

/-- The bodies without a prefix, from the first one on. -/
theorem otherBodies_cons (factor body : Body) (rest : List Body) :
    otherBodies factor (body :: rest) =
      if body.take factor.length = factor then otherBodies factor rest
      else body :: otherBodies factor rest := by
  rw [otherBodies, List.filter_cons]
  by_cases h : body.take factor.length = factor
  · rw [if_pos h, if_neg (by rw [bne_iff_ne]; exact fun hne => hne h), otherBodies]
  · rw [if_neg h, if_pos (bne_iff_ne.mpr h), otherBodies]

/-- The rests of the bodies with a prefix, from the first one on. -/
theorem suffixBodies_cons (factor body : Body) (rest : List Body) :
    suffixBodies factor (body :: rest) =
      if body.take factor.length = factor then suffixBody factor body :: suffixBodies factor rest
      else suffixBodies factor rest := by
  rw [suffixBodies, List.filter_cons]
  by_cases h : body.take factor.length = factor
  · rw [if_pos h, if_pos (beq_iff_eq.mpr h)]
    rfl
  · rw [if_neg h, if_neg (by rw [beq_iff_eq]; exact h)]
    rfl

/-- The symbols of bodies are those of the bodies without the prefix, those of
the rests, and the prefix once for every rest. -/
theorem spelledSize_factor (factor : Body) (bodies : List Body) :
    spelledSize (otherBodies factor bodies) +
      (suffixBodies factor bodies).length * (Body.spelled factor).length +
      spelledSize (suffixBodies factor bodies) = spelledSize bodies := by
  induction bodies with
  | nil =>
    rw [suffixBodies, otherBodies, List.filter_nil, List.filter_nil, List.map_nil,
      List.length_nil, Nat.zero_mul, spelledSize_nil]
  | cons body rest ih =>
    rw [otherBodies_cons, suffixBodies_cons]
    by_cases h : body.take factor.length = factor
    · have hbody : (Body.spelled body).length = (Body.spelled factor).length +
          (Body.spelled (body.drop factor.length)).length := by
        rw [← List.length_append, ← Body.spelled_append, ← eq_append_drop h]
      rw [if_pos h, if_pos h, List.length_cons, Nat.succ_mul, spelledSize_cons, spelledSize_cons,
        spelled_suffixBody]
      omega
    · rw [if_neg h, if_neg h, spelledSize_cons, spelledSize_cons]
      omega

/-- Factoring a shared prefix does not make the bodies of a variable and its
new one longer. -/
theorem SharedPrefix.spelledSize_le {factor : Body} {bodies : List Body}
    (h : SharedPrefix factor bodies) (he : .epsilon ∉ factor) (new : String) :
    spelledSize (otherBodies factor bodies ++ [factor ++ [.nonterminal new]]) +
      spelledSize (suffixBodies factor bodies) ≤ spelledSize bodies := by
  have htotal := spelledSize_factor factor bodies
  have hlength : 1 ≤ (Body.spelled factor).length := by
    rw [Body.spelled_eq_self he]
    exact List.length_pos_of_ne_nil h.ne_nil
  have hcopies := Nat.mul_le_mul_right (Body.spelled factor).length h.twice
  have hnew : (Body.spelled (factor ++ [.nonterminal new])).length =
      (Body.spelled factor).length + 1 := by
    rw [Body.spelled_append, List.length_append]
    rfl
  rw [spelledSize_append, spelledSize_cons, spelledSize_nil, hnew]
  omega

namespace Components

/-- The symbols of all bodies, the empty string aside. -/
def spelledSymbols (c : Components) : List Symbol :=
  c.rules.entries.flatMap fun entry => entry.2.flatMap Body.spelled

theorem length_spelledSymbols (c : Components) :
    c.spelledSymbols.length = c.rules.weight spelledSize := by
  rw [spelledSymbols, SymbolTable.weight]
  induction c.rules.entries with
  | nil => rfl
  | cons entry rest ih =>
    rw [List.flatMap_cons, List.length_append, ih, SymbolTable.weightOf, spelledSize]

/-- A nonterminal of an alternative is among the symbols. -/
theorem mem_spelledSymbols {c : Components} {a x : Symbol} {body : Body}
    (hb : body ∈ c.rulesOf a) (hx : x ∈ body) (hk : x.isNonterminal = true) :
    x ∈ c.spelledSymbols := by
  obtain ⟨bodies, hentry, hmem⟩ := mem_rulesOf_iff_mem_entries.mp hb
  refine List.mem_flatMap.mpr ⟨(a, bodies), hentry, List.mem_flatMap.mpr ⟨body, hmem, ?_⟩⟩
  refine Body.mem_spelled.mpr ⟨hx, ?_⟩
  rintro rfl
  cases hk

/-- Factoring a shared prefix does not make the bodies longer. -/
theorem weight_factorOut_le {c : Components} (h : c.Closed) (hv : c.Valid) {a : Symbol}
    (ha : a ∈ c.vars) {factor : Body} (hs : SharedPrefix factor (c.rulesOf a)) :
    (c.factorOut (a, factor)).rules.weight spelledSize ≤ c.rules.weight spelledSize := by
  obtain ⟨body, hbody, -⟩ := hs.exists_body
  have hfactor := hs.epsilon_notMem_factor (hv.proper a)
  have hnew : .nonterminal (c.factorName a) ∉ c.vars := c.factorName_notMem a
  have habsent : (c.rules.set a (otherBodies factor (c.rulesOf a) ++
      [factor ++ [.nonterminal (c.factorName a)]])).get? (.nonterminal (c.factorName a)) = none := by
    have hne : a ≠ .nonterminal (c.factorName a) := fun e => hnew (e ▸ ha)
    rw [SymbolTable.get?_set, if_neg hne]
    cases hget : c.rules.get? (.nonterminal (c.factorName a)) with
    | none => rfl
    | some bodies => exact absurd (h.key_declared _ bodies hget) hnew
  have hfirst := SymbolTable.weight_set spelledSize (get?_eq_some_of_mem_rulesOf hbody)
    (otherBodies factor (c.rulesOf a) ++ [factor ++ [.nonterminal (c.factorName a)]])
  have hsecond := SymbolTable.weight_set_of_get?_eq_none spelledSize habsent
    (suffixBodies factor (c.rulesOf a))
  have hbodies := hs.spelledSize_le hfactor (c.factorName a)
  have hrules : (c.factorOut (a, factor)).rules = (c.rules.set a (otherBodies factor (c.rulesOf a) ++
      [factor ++ [.nonterminal (c.factorName a)]])).set (.nonterminal (c.factorName a))
      (suffixBodies factor (c.rulesOf a)) := rfl
  rw [hrules, hsecond]
  omega

/-- Every factoring adds a variable. -/
theorem size_vars_factorOut (c : Components) (target : Symbol × Body) :
    c.vars.size < (c.factorOut target).vars.size := by
  obtain ⟨a, factor⟩ := target
  refine SymbolSet.size_lt_of_subset (fun b hb => mem_vars_factorOut.mpr (.inr hb)) fun e => ?_
  refine c.factorName_notMem a ?_
  rw [e]
  exact mem_vars_factorOut.mpr (.inl rfl)

/-- A pass adds a variable for each of its targets. -/
theorem size_vars_foldl_factorOut (todo : List (Symbol × Body)) (c : Components) :
    c.vars.size + todo.length ≤ (todo.foldl factorOut c).vars.size := by
  induction todo generalizing c with
  | nil => exact Nat.le_refl _
  | cons target rest ih =>
    have hfirst := c.size_vars_factorOut target
    have hrest := ih (c.factorOut target)
    rw [List.length_cons, List.foldl_cons]
    omega

/-- What holds of components that come out of others by factorings. -/
structure FactoredFrom (c₀ c : Components) : Prop where
  /-- The components are closed. -/
  closed : c.Closed
  /-- They are valid. -/
  valid : c.Valid
  /-- No variable is lost. -/
  kept : c₀.vars ⊆ c.vars
  /-- The old variables yield what they did. -/
  yields : ∀ a ∈ c₀.vars, ∀ w, Yields c.rulesOf [a] w ↔ Yields c₀.rulesOf [a] w
  /-- A new variable stands in a body. -/
  placed : ∀ a ∈ c.vars, a ∈ c₀.vars ∨ ∃ b, ∃ body ∈ c.rulesOf b, a ∈ body
  /-- The bodies did not get longer. -/
  weight_le : c.rules.weight spelledSize ≤ c₀.rules.weight spelledSize

namespace FactoredFrom

variable {c₀ c next : Components}

/-- Nothing is factored at the beginning. -/
theorem refl (h : c₀.Closed) (hv : c₀.Valid) : FactoredFrom c₀ c₀ where
  closed := h
  valid := hv
  kept := fun _ ha => ha
  yields := fun _ _ _ => Iff.rfl
  placed := fun _ ha => .inl ha
  weight_le := Nat.le_refl _

/-- One more factoring keeps what holds. -/
theorem step (h : FactoredFrom c₀ c) (hs : FactorStep c next) : FactoredFrom c₀ next := by
  cases hs with
  | @factor a factor mem shared =>
    obtain ⟨n, rfl⟩ := h.closed.exists_name mem
    have hf := h.closed.factored mem factor
    refine ⟨h.closed.factorOut mem shared.exists_body, h.valid.factorOut mem shared, ?_, ?_, ?_, ?_⟩
    · exact fun b hb => mem_vars_factorOut.mpr (.inr (h.kept b hb))
    · intro b hb w
      rw [h.closed.yields_factorOut mem factor (h.kept b hb), h.yields b hb w]
    · intro b hb
      rcases mem_vars_factorOut.mp hb with e | hb
      · refine .inr ⟨.nonterminal n, factor ++ [b], ?_, ?_⟩
        · rw [hf.whole, e]
          exact List.mem_append_right _ List.mem_cons_self
        · exact List.mem_append_right _ List.mem_cons_self
      · refine (h.placed b hb).imp_right fun ⟨owner, body, hbody, hmem⟩ => ?_
        by_cases howner : owner = .nonterminal n
        · rw [howner] at hbody
          obtain ⟨m, -, other, hother, hin⟩ := hf.exists_body hbody hmem
          exact ⟨_, other, hother, hin⟩
        · -- other variables have their alternatives as before
          obtain ⟨m, rfl⟩ := h.closed.exists_name (h.valid.key_mem _ _
            (get?_eq_some_of_mem_rulesOf hbody))
          refine ⟨.nonterminal m, body, ?_, hmem⟩
          rw [hf.other m (fun e => howner (congrArg _ e)) fun e => ?_]
          · exact hbody
          · rw [e, hf.new_empty] at hbody
            exact absurd hbody List.not_mem_nil
    · exact Nat.le_trans (weight_factorOut_le h.closed h.valid mem shared) h.weight_le

/-- Any number of factorings keep what holds. -/
theorem steps (h : FactoredFrom c₀ c) (hs : FactorSteps c next) : FactoredFrom c₀ next := by
  induction hs with
  | refl => exact h
  | tail _ hstep ih => exact ih.step hstep

/-- There are no more new variables than symbols in the old bodies. -/
theorem size_vars_le (h : FactoredFrom c₀ c) :
    c.vars.size ≤ c₀.vars.size + c₀.rules.weight spelledSize := by
  have hinside : ∀ a ∈ c.vars, a ∈ c₀.vars.members ++ c.spelledSymbols := by
    intro a ha
    rcases h.placed a ha with hold | ⟨b, body, hbody, hmem⟩
    · exact List.mem_append_left _ hold
    · exact List.mem_append_right _
        (mem_spelledSymbols hbody hmem (h.closed.vars_nonterminal a ha))
  have hlength := SymbolSet.size_le_length hinside
  have hweight := h.weight_le
  rw [List.length_append, length_spelledSymbols] at hlength
  have hsize : c₀.vars.members.length = c₀.vars.size := rfl
  omega

end FactoredFrom

end Components

namespace Grammar

/-- Where something is to be factored a pass is made. -/
theorem factorPasses_succ {g : Grammar} (h : g.factorable ≠ []) (limit : Nat) :
    factorPasses (limit + 1) g =
      (g.factorable.foldl Components.factorOut g.toComponents).check >>= factorPasses limit := by
  rw [factorPasses]
  cases hf : g.factorable with
  | nil => exact absurd hf h
  | cons target rest => rfl

/-- Where nothing is to be factored there is nothing to be done. -/
theorem factorPasses_of_factorable_eq_nil {g : Grammar} (h : g.factorable = []) (limit : Nat) :
    factorPasses limit g = .ok g := by
  cases limit with
  | zero => rfl
  | succ limit => rw [factorPasses, h]

/-- Passes of factoring end, with nothing left to be factored, if the limit
exceeds the number of variables that can still be added. -/
theorem exists_factorPasses {c₀ : Components} {limit : Nat} {g : Grammar}
    (h : c₀.FactoredFrom g.toComponents)
    (hlimit : c₀.vars.size + c₀.rules.weight spelledSize < g.vars.size + limit) :
    ∃ r, factorPasses limit g = .ok r ∧ r.factorable = [] ∧
      Components.FactorSteps g.toComponents r.toComponents := by
  induction limit generalizing g with
  | zero =>
    have hsize := h.size_vars_le
    omega
  | succ limit ih =>
    by_cases hf : g.factorable = []
    · exact ⟨g, factorPasses_of_factorable_eq_nil hf _, hf, .refl⟩
    · have hpass := h.closed.grammar.factorSteps
      have hnext := h.steps hpass
      have hgrows := Components.size_vars_foldl_factorOut g.factorable g.toComponents
      have htargets := List.length_pos_of_ne_nil hf
      obtain ⟨next, hcheck, e⟩ := hnext.valid.check_eq_ok
      rw [← e] at hpass hnext hgrows
      obtain ⟨r, hr, hdone, hrest⟩ := ih hnext (by omega)
      rw [factorPasses_succ hf, hcheck]
      exact ⟨r, hr, hdone, hpass.trans hrest⟩

/-- All bodies spell no more symbols than they have. -/
theorem weight_spelledSize_le (g : Grammar) : g.rules.weight spelledSize ≤ g.bodySymbols := by
  have hbodies : ∀ bodies : List Body, spelledSize bodies ≤ bodies.flatten.length := by
    intro bodies
    induction bodies with
    | nil => exact Nat.le_refl 0
    | cons body rest ih =>
      have hbody : (Body.spelled body).length ≤ body.length := List.length_filter_le _ _
      rw [spelledSize_cons, List.flatten_cons, List.length_append]
      omega
  rw [SymbolTable.weight, bodySymbols]
  induction g.rules.entries with
  | nil => exact Nat.le_refl 0
  | cons entry rest ih =>
    have hentry := hbodies entry.2
    rw [SymbolTable.weightOf, List.flatMap_cons, List.length_append]
    omega

/-- The removal of common prefixes ends in a grammar without any, which comes
out of factorings. -/
theorem Closed.exists_leftFactor {g : Grammar} (hg : g.Closed) :
    ∃ h, g.leftFactor = .ok h ∧ h.factorable = [] ∧
      Components.FactorSteps g.toComponents h.toComponents := by
  have hstart := Components.FactoredFrom.refl hg.components g.valid
  have hweight := g.weight_spelledSize_le
  exact exists_factorPasses hstart (by omega)

/-- The outcome of the removal comes out of factorings. -/
theorem Closed.factoredFrom {g h : Grammar} (hg : g.Closed) (hh : g.leftFactor = .ok h) :
    g.toComponents.FactoredFrom h.toComponents := by
  obtain ⟨r, hr, -, hsteps⟩ := hg.exists_leftFactor
  rw [hh] at hr
  rw [Except.ok.inj hr]
  exact (Components.FactoredFrom.refl hg.components g.valid).steps hsteps

/-- The removal of common prefixes ends, in a grammar where no alternatives of
a variable share a prefix, and every variable of the grammar generates in it
the strings that it generated before. -/
theorem leftFactor_keeps_generated (g : Grammar) (hg : g.Closed) :
    ∃ h, g.leftFactor = .ok h ∧ h.factorable = [] ∧
      ∀ a ∈ g.vars, a ∈ h.vars ∧ ∀ w, Generates h.rulesOf [a] w ↔ Generates g.rulesOf [a] w := by
  obtain ⟨h, hh, hdone, -⟩ := hg.exists_leftFactor
  have hfrom := hg.factoredFrom hh
  refine ⟨h, hh, hdone, fun a ha => ⟨hfrom.kept a ha, fun w => ?_⟩⟩
  have hk := hg.vars_nonterminal a ha
  rw [generates_nonterminal hk, generates_nonterminal hk]
  exact hfrom.yields a ha w

/-- A grammar whose last compared pair of alternatives shares less than
another pair. -/
def nestedPrefixes : Grammar :=
  ⟨componentsOfNames ["A"] ["a", "b", "c", "d", "e"]
    [("A", [["a", "b", "c"], ["a", "b", "d"], ["a", "e"], ["a", "e"], ["a"]])] "A" none,
    by decide +kernel⟩

/-- The shorter prefix is factored first, and the strings stay. -/
theorem leftFactor_nestedPrefixes : nestedPrefixes.Closed ∧
    nestedPrefixes.factorable = [(.nonterminal "A", [.terminal "a"])] ∧
    ∃ h, nestedPrefixes.leftFactor = .ok h ∧ h.factorable = [] ∧
      ∀ a ∈ nestedPrefixes.vars, a ∈ h.vars ∧
        ∀ w, Generates h.rulesOf [a] w ↔ Generates nestedPrefixes.rulesOf [a] w := by
  have hclosed : nestedPrefixes.Closed := closed_of_componentsOfNames rfl
  exact ⟨hclosed, by decide +kernel, leftFactor_keeps_generated nestedPrefixes hclosed⟩

end Grammar

end PredictiveParsing
