import PredictiveParsing.Proofs.Derivation
import PredictiveParsing.Proofs.Reduction.FreshVariables
import PredictiveParsing.Reduction.LeftRecursion

/-!
# Splitting left recursion keeps the generated strings

A variable A with alternatives A α and β is split into A → U V, U → β and
V → α V or the empty string. Each direction of the comparison is a reading
of the new or the old symbols that is closed under the rules: V is read as
what may be put behind a string of A, and a string of V may be prolonged by
any α at its end. The splits of one pass are taken one after the other; what
is still to be split has its old alternatives, and what is split is no longer
recursive, so that one pass suffices.
-/

namespace PredictiveParsing

theorem mem_baseBodies {a : Symbol} {bodies : List Body} {body : Body} :
    body ∈ baseBodies a bodies ↔ body ∈ bodies ∧ body.head? ≠ some a := by
  unfold baseBodies
  rw [List.mem_filter, bne_iff_ne]

theorem mem_tailBodies {a last : Symbol} {bodies : List Body} {body : Body} :
    body ∈ tailBodies a last bodies ↔ ∃ rest, a :: rest ∈ bodies ∧ body = rest ++ [last] := by
  unfold tailBodies
  rw [List.mem_filterMap]
  constructor
  · intro ⟨found, hmem, hf⟩
    match found, hmem, hf with
    | x :: rest, hmem, hf =>
      dsimp only at hf
      split at hf
      · next e => exact ⟨rest, e ▸ hmem, (Option.some.inj hf).symm⟩
      · cases hf
  · intro ⟨rest, hmem, hb⟩
    exact ⟨a :: rest, hmem, by rw [hb]; exact if_pos rfl⟩

/-- A body starts with a symbol or not. -/
theorem head?_eq_some_iff_exists {a : Symbol} {body : Body} :
    body.head? = some a ↔ ∃ rest, body = a :: rest := by
  cases body with
  | nil => simp
  | cons x rest => simp [eq_comm]

/-- Productions where a variable is split on two new ones. -/
structure Split (P Q : Productions) (n u v : String) : Prop where
  /-- The variable becomes the two new ones. -/
  whole : Q (.nonterminal n) = [[.nonterminal u, .nonterminal v]]
  /-- The first one has the alternatives without recursion. -/
  base : Q (.nonterminal u) = baseBodies (.nonterminal n) (P (.nonterminal n))
  /-- The second one repeats what follows the recursion. -/
  tail : Q (.nonterminal v) =
    tailBodies (.nonterminal n) (.nonterminal v) (P (.nonterminal n)) ++ [epsilonBody]
  /-- Other nonterminals are left as they are. -/
  other : ∀ m, m ≠ n → m ≠ u → m ≠ v → Q (.nonterminal m) = P (.nonterminal m)
  /-- The first one is not the variable. -/
  first_ne : u ≠ n
  /-- The second one is not the variable. -/
  second_ne : v ≠ n
  /-- The new ones differ. -/
  second_ne_first : v ≠ u
  /-- The first one had no alternatives. -/
  first_empty : P (.nonterminal u) = []
  /-- The second one had no alternatives. -/
  second_empty : P (.nonterminal v) = []
  /-- The first one was in no body. -/
  first_new : ∀ a, ∀ body ∈ P a, .nonterminal u ∉ body
  /-- The second one was in no body. -/
  second_new : ∀ a, ∀ body ∈ P a, .nonterminal v ∉ body

namespace Split

variable {P Q : Productions} {n u v : String}

/-- The new symbols read in the old productions: the first one as the
alternatives without recursion, the second one as what may be put behind a
string of the variable. -/
def reading (P : Productions) (n u v : String) (a : Symbol) (w : List Symbol) : Prop :=
  if a = .nonterminal u then
    ∃ body ∈ baseBodies (.nonterminal n) (P (.nonterminal n)), Yields P body w
  else if a = .nonterminal v then
    ∀ p, Yields P [.nonterminal n] p → Yields P [.nonterminal n] (p ++ w)
  else Yields P [a] w

/-- Symbols that are not new are read as what they yield. -/
theorem yields_of_spells_reading {form w : List Symbol} (hu : .nonterminal u ∉ form)
    (hv : .nonterminal v ∉ form) (h : Spells (reading P n u v) form w) : Yields P form w := by
  refine spells_yields.mp (h.imp fun a ha x hx => ?_)
  have hau : a ≠ .nonterminal u := fun e => hu (e ▸ ha)
  have hav : a ≠ .nonterminal v := fun e => hv (e ▸ ha)
  unfold reading at hx
  rwa [if_neg hau, if_neg hav] at hx

/-- The reading of the new symbols is closed under the new rules. -/
theorem reading_closed (h : Split P Q n u v) (m : String) (body : Body)
    (hb : body ∈ Q (.nonterminal m)) (w : List Symbol)
    (hw : Spells (reading P n u v) body w) : reading P n u v (.nonterminal m) w := by
  have hnu : Symbol.nonterminal n ≠ .nonterminal u := fun e => h.first_ne (Symbol.nonterminal.inj e).symm
  have hnv : Symbol.nonterminal n ≠ .nonterminal v :=
    fun e => h.second_ne (Symbol.nonterminal.inj e).symm
  have hvu : Symbol.nonterminal v ≠ .nonterminal u :=
    fun e => h.second_ne_first (Symbol.nonterminal.inj e)
  have old : ∀ form ∈ P (.nonterminal n), ∀ x, Spells (reading P n u v) form x → Yields P form x :=
    fun form hf x hx => yields_of_spells_reading (h.first_new _ _ hf) (h.second_new _ _ hf) hx
  by_cases hmn : m = n
  · rw [hmn, h.whole, List.mem_singleton] at hb
    rw [hb] at hw
    obtain ⟨x, y, hxy, hx, hy⟩ := hw
    rw [spells_singleton] at hy
    unfold reading at hx hy
    rw [if_pos rfl] at hx
    rw [if_neg hvu, if_pos rfl] at hy
    obtain ⟨base, hbase, hyield⟩ := hx
    have hn : Yields P [.nonterminal n] x :=
      yields_nonterminal.mpr ⟨base, (mem_baseBodies.mp hbase).1, hyield⟩
    unfold reading
    rw [hmn, if_neg hnu, if_neg hnv, hxy]
    exact hy x hn
  by_cases hmu : m = u
  · rw [hmu, h.base] at hb
    unfold reading
    rw [hmu, if_pos rfl]
    exact ⟨body, hb, old body (mem_baseBodies.mp hb).1 w hw⟩
  by_cases hmv : m = v
  · rw [hmv, h.tail, List.mem_append, List.mem_singleton] at hb
    unfold reading
    rw [hmv, if_neg hvu, if_pos rfl]
    intro p hp
    rcases hb with hb | hb
    · obtain ⟨rest, hrest, hbody⟩ := mem_tailBodies.mp hb
      rw [hbody, spells_append] at hw
      obtain ⟨x, y, hxy, hx, hy⟩ := hw
      rw [spells_singleton] at hy
      unfold reading at hy
      rw [if_neg hvu, if_pos rfl] at hy
      have hsub : Yields P rest x := by
        refine yields_of_spells_reading (n := n) (u := u) (v := v) ?_ ?_ hx
        · exact fun hm => h.first_new _ _ hrest (List.mem_cons_of_mem _ hm)
        · exact fun hm => h.second_new _ _ hrest (List.mem_cons_of_mem _ hm)
      have hgrown : Yields P [.nonterminal n] (p ++ x) :=
        yields_nonterminal.mpr ⟨_, hrest, hp.append hsub⟩
      have := hy (p ++ x) hgrown
      rwa [hxy, ← List.append_assoc]
    · rw [hb] at hw
      have hnil : w = [] :=
        yields_epsilonBody.mp (yields_of_spells_reading (P := P) (n := n) (u := u) (v := v)
          (nonterminal_notMem_epsilonBody u) (nonterminal_notMem_epsilonBody v) hw)
      rwa [hnil, List.append_nil]
  · rw [h.other m hmn hmu hmv] at hb
    unfold reading
    rw [if_neg fun e => hmu (Symbol.nonterminal.inj e), if_neg fun e => hmv (Symbol.nonterminal.inj e)]
    exact yields_nonterminal.mpr
      ⟨body, hb, yields_of_spells_reading (h.first_new _ _ hb) (h.second_new _ _ hb) hw⟩

/-- What the new symbols yield can be prolonged by what follows the
recursion. -/
theorem yields_second_append (h : Split P Q n u v) {rest w x : List Symbol}
    (hrest : .nonterminal n :: rest ∈ P (.nonterminal n)) (hx : Yields Q rest x)
    (hw : Yields Q [.nonterminal v] w) : Yields Q [.nonterminal v] (w ++ x) := by
  have again : rest ++ [.nonterminal v] ∈ Q (.nonterminal v) := by
    rw [h.tail, List.mem_append]
    exact .inl (mem_tailBodies.mpr ⟨rest, hrest, rfl⟩)
  have stop : Yields Q [.nonterminal v] [] := by
    refine yields_nonterminal.mpr ⟨epsilonBody, ?_, yields_epsilonBody.mpr rfl⟩
    rw [h.tail, List.mem_append]
    exact .inr List.mem_cons_self
  -- beside its strings, V is read as what still can be prolonged
  let S : Symbol → List Symbol → Prop := fun a y =>
    Yields Q [a] y ∧ (a = .nonterminal v → Yields Q [.nonterminal v] (y ++ x))
  have plain : ∀ form y, Spells S form y → Yields Q form y :=
    fun form y hy => spells_yields.mp (hy.imp fun a _ z hz => hz.1)
  have key : Spells S [.nonterminal v] w := by
    refine hw.spells ⟨.epsilon .nil, fun e => by cases e⟩
      (fun t => ⟨.terminal .nil, fun e => by cases e⟩) ?_
    intro m body hb y hy
    refine ⟨yields_nonterminal.mpr ⟨body, hb, plain body y hy⟩, fun e => ?_⟩
    rw [e, h.tail, List.mem_append, List.mem_singleton] at hb
    rcases hb with hb | hb
    · obtain ⟨front, hfront, hbody⟩ := mem_tailBodies.mp hb
      rw [hbody, spells_append] at hy
      obtain ⟨p, q, hpq, hp, hq⟩ := hy
      have hlong := (spells_singleton.mp hq).2 rfl
      refine yields_nonterminal.mpr ⟨front ++ [.nonterminal v], ?_, ?_⟩
      · rw [h.tail, List.mem_append]
        exact .inl (mem_tailBodies.mpr ⟨front, hfront, rfl⟩)
      · rw [hpq, List.append_assoc]
        exact (plain front p hp).append hlong
    · rw [hb] at hy
      have hnil := yields_epsilonBody.mp (plain _ _ hy)
      rw [hnil, List.nil_append, ← List.append_nil x]
      exact yields_nonterminal.mpr ⟨_, again, hx.append stop⟩
  exact (spells_singleton.mp key).2 rfl

/-- The old rules hold of what the symbols yield after the split. -/
theorem yields_closed (h : Split P Q n u v) (m : String) (body : Body)
    (hb : body ∈ P (.nonterminal m)) (w : List Symbol) (hw : Yields Q body w) :
    Yields Q [.nonterminal m] w := by
  by_cases hmu : m = u
  · rw [hmu, h.first_empty] at hb
    exact absurd hb List.not_mem_nil
  by_cases hmv : m = v
  · rw [hmv, h.second_empty] at hb
    exact absurd hb List.not_mem_nil
  by_cases hmn : m = n
  · subst hmn
    have split : ∀ {x y}, Yields Q [.nonterminal u] x → Yields Q [.nonterminal v] y →
        Yields Q [.nonterminal m] (x ++ y) := by
      intro x y hx hy
      refine yields_nonterminal.mpr ⟨_, ?_, hx.append hy⟩
      rw [h.whole]
      exact List.mem_cons_self
    by_cases hh : body.head? = some (.nonterminal m)
    · obtain ⟨rest, hrest⟩ := head?_eq_some_iff_exists.mp hh
      rw [hrest] at hb hw
      obtain ⟨p, q, hpq, hp, hq⟩ := hw.uncons
      obtain ⟨whole, hwhole, hyield⟩ := yields_nonterminal.mp hp
      rw [h.whole, List.mem_singleton] at hwhole
      rw [hwhole] at hyield
      obtain ⟨x, y, hxy, hx, hy⟩ := hyield.uncons
      rw [hpq, hxy, List.append_assoc]
      exact split hx (h.yields_second_append hb hq hy)
    · have hbase : Yields Q [.nonterminal u] w := by
        refine yields_nonterminal.mpr ⟨body, ?_, hw⟩
        rw [h.base]
        exact mem_baseBodies.mpr ⟨hb, hh⟩
      have hstop : Yields Q [.nonterminal v] [] := by
        refine yields_nonterminal.mpr ⟨epsilonBody, ?_, yields_epsilonBody.mpr rfl⟩
        rw [h.tail, List.mem_append]
        exact .inr List.mem_cons_self
      simpa using split hbase hstop
  · refine yields_nonterminal.mpr ⟨body, ?_, hw⟩
    rwa [h.other m hmn hmu hmv]

/-- A split keeps what forms of old symbols yield. -/
theorem yields_iff (h : Split P Q n u v) {form w : List Symbol} (hu : .nonterminal u ∉ form)
    (hv : .nonterminal v ∉ form) : Yields Q form w ↔ Yields P form w := by
  constructor
  · intro hw
    refine yields_of_spells_reading (n := n) hu hv (hw.spells ?_ ?_ h.reading_closed)
    · exact yields_epsilonBody.mpr rfl
    · exact fun t => .terminal .nil
  · intro hw
    refine spells_yields.mp (hw.spells ?_ ?_ ?_)
    · exact .epsilon .nil
    · exact fun t => .terminal .nil
    · exact fun m body hb x hx => h.yields_closed m body hb x (spells_yields.mp hx)

end Split

end PredictiveParsing
