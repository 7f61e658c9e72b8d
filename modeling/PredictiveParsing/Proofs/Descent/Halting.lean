import PredictiveParsing.Proofs.Descent.Prediction

/-!
# A deterministic descent halts within the limit

Between two tokens a descent can only let variables vanish, leave frames, and
open variables along the chain that leads to the current token. The chain is
the shortest one there is, so that no variable comes twice in it. This gives
a number of expansions that are still possible at most; together with the
unread symbols and the frames it bounds the steps that are left, and at the
beginning it lies below the limit of a parse.
-/

namespace PredictiveParsing

namespace Grammar

variable {g : Grammar} {n : Nat} {a t : Symbol}

/-- A shortest chain of leading symbols. -/
def Nearest (g : Grammar) (n : Nat) (a t : Symbol) : Prop :=
  g.Leads n a t ∧ ∀ m < n, ¬g.Leads m a t

/-- Where there is a chain there is a shortest one. -/
theorem Leads.exists_nearest (h : g.Leads n a t) : ∃ m, g.Nearest m a t := by
  induction n using Nat.strongRecOn with
  | ind n ih =>
    by_cases hm : ∃ m < n, g.Leads m a t
    · obtain ⟨m, hlt, hm⟩ := hm
      exact ih m hlt hm
    · exact ⟨n, h, fun m hlt hl => hm ⟨m, hlt, hl⟩⟩

/-- A shortest chain goes on as a shortest chain. -/
theorem Nearest.tail (h : g.Nearest (n + 1) a t) :
    ∃ body ∈ g.rulesOf a, ∃ x, body.head? = some x ∧ g.Nearest n x t := by
  obtain ⟨hl, hmin⟩ := h
  cases hl with
  | @step _ _ x _ body mem head tail =>
    refine ⟨body, mem, x, head, tail, fun m hm hl => ?_⟩
    exact hmin (m + 1) (by omega) (.step mem head hl)

/-- The variables of a shortest chain are different from each other. -/
theorem Nearest.exists_variables (h : g.Nearest n a t) :
    ∃ l : List Symbol, l.Nodup ∧ l.length = n ∧
      ∀ y ∈ l, y ∈ g.vars ∧ ∃ m ≤ n, g.Nearest m y t := by
  induction n generalizing a with
  | zero => exact ⟨[], List.nodup_nil, rfl, fun y hy => absurd hy List.not_mem_nil⟩
  | succ n ih =>
    obtain ⟨body, hbody, x, -, hx⟩ := h.tail
    obtain ⟨l, hnodup, hlength, hall⟩ := ih hx
    have hnew : a ∉ l := by
      intro ha
      obtain ⟨-, m, hm, hnear⟩ := hall a ha
      exact h.2 m (by omega) hnear.1
    refine ⟨a :: l, List.nodup_cons.mpr ⟨hnew, hnodup⟩, ?_, fun y hy => ?_⟩
    · rw [List.length_cons, hlength]
    · rcases List.mem_cons.mp hy with e | hy
      · rw [e]
        exact ⟨mem_vars_of_mem_rulesOf hbody, n + 1, Nat.le_refl _, h⟩
      · obtain ⟨hv, m, hm, hnear⟩ := hall y hy
        exact ⟨hv, m, by omega, hnear⟩

/-- A shortest chain has no more steps than there are variables. -/
theorem Nearest.le_size (h : g.Nearest n a t) : n ≤ g.vars.size := by
  obtain ⟨l, hnodup, hlength, hall⟩ := h.exists_variables
  have hsub : l ⊆ g.vars.members := fun y hy => (hall y hy).1
  have hle := (hnodup.subperm hsub).length_le
  rw [hlength] at hle
  exact hle

/-- A chain from a variable has a step. -/
theorem Leads.exists_succ (h : g.Leads n a t) (ha : a ∈ g.vars) : ∃ m, n = m + 1 := by
  cases h with
  | self notMem => exact absurd ha notMem
  | @step m => exact ⟨m, rfl⟩

/-- From a symbol that is no variable a chain leads nowhere else. -/
theorem Leads.eq_of_notMem (h : g.Leads n a t) (ha : a ∉ g.vars) : t = a := by
  cases h with
  | self => rfl
  | step mem => exact absurd (mem_vars_of_mem_rulesOf mem) ha

end Grammar

namespace Parser

variable {p : Parser} {s : ParseState} {x t : Symbol} {n : Nat}

/-- The chosen rule of a variable is the next step of the chain to the
current token. -/
theorem Predictive.nearest_of_chosenRule (d : p.Predictive)
    (h : p.grammar.Nearest (n + 1) x t) (hne : t ≠ .epsilon)
    (hu : (p.current s).unit = p.unitOf t) {k : Nat} {body : Body}
    (hc : p.chosenRule x s = some (k, body)) :
    ∃ y, body.head? = some y ∧ p.grammar.Nearest n y t := by
  obtain ⟨next, hnext, y, hy, hnear⟩ := h.tail
  have hlookup := d.closed.mem_lookup_of_leads hnear.1 fun hk =>
    d.closed.body_declared x next hnext y (List.mem_of_head? hy) hk
  obtain ⟨i, hi, hget⟩ := d.select_leading hnext hy hlookup hne
  obtain ⟨j, hj, hbody, -⟩ := chosenRule_eq_some hc
  rw [hu, hi] at hj
  rw [← Option.some.inj hj, hget] at hbody
  rw [← Option.some.inj hbody]
  exact ⟨y, hy, hnear⟩

/-- A rule other than the empty string is chosen only on a chain to the
current token, which is not the end marker. -/
theorem Predictive.exists_nearest (d : p.Predictive) {k : Nat} {body : Body}
    (hc : p.chosenRule x s = some (k, body)) (hb : body ≠ epsilonBody) :
    ∃ n t, p.grammar.Nearest n x t ∧ t ≠ .epsilon ∧ (p.current s).unit = p.unitOf t ∧
      s.cursor + 1 < p.stream.size := by
  obtain ⟨i, hi, hget, -⟩ := chosenRule_eq_some hc
  have hmem := List.mem_of_getElem? hget
  rcases eq_epsilonBody_or_meets hi hget with e | hm
  · exact absurd e hb
  · obtain ⟨y, t, hy, ht, hne, hu⟩ := exists_lookup_of_meets d.closed d.table_eq hmem hm
    obtain ⟨hterminal, hoccurs⟩ := d.closed.terminal_of_lookup hmem hy ht hne
    obtain ⟨m, hm⟩ := d.closed.firstSets.leads d.closed ht
    obtain ⟨n, hn⟩ := (Grammar.Leads.step hmem hy hm).exists_nearest
    have hend := d.unit_ne_end t hterminal hoccurs
    rw [hu] at hend
    exact ⟨n, t, hn, hne, hu.symm, cursor_lt_of_unit_ne hend⟩

/-- The number of tokens from the current one up to the end marker. -/
def ahead (p : Parser) (s : ParseState) : Nat := p.stream.size - 1 - s.cursor

/-- How many variables can still be opened at most. -/
inductive Budget (p : Parser) (s : ParseState) : List Frame → Nat → Prop
  /-- Every variable may be opened once for each token ahead. -/
  | idle {stack : List Frame} : Budget p s stack (p.grammar.vars.size * p.ahead s)
  /-- For the current token only the rest of a chain is opened. -/
  | aimed {node n : Nat} {x t : Symbol} {unread : Body} {below : List Frame}
      (near : p.grammar.Nearest n x t) (ne : t ≠ .epsilon)
      (unit : (p.current s).unit = p.unitOf t) (before : s.cursor + 1 < p.stream.size) :
      Budget p s (⟨node, x :: unread⟩ :: below) (p.grammar.vars.size * (p.ahead s - 1) + n)

/-- A number of steps that suffices for a stack with a budget: each unread
symbol and each frame takes a step, and each opened variable brings a frame
with the symbols of a body. -/
def potential (p : Parser) (stack : List Frame) (budget : Nat) : Nat :=
  (stack.flatMap Frame.unread).length + stack.length + (longestBody p.grammar + 1) * budget

/-- A repetition that never decreases a number ends at no smaller one. -/
theorem le_foldl {α : Type} {f : Nat → α → Nat} (grows : ∀ k a, k ≤ f k a) (l : List α) (k : Nat) :
    k ≤ l.foldl f k := by
  induction l generalizing k with
  | nil => exact Nat.le_refl k
  | cons a rest ih => exact Nat.le_trans (grows k a) (ih (f k a))

/-- What one member contributes at least is not lost. -/
theorem le_foldl_of_mem {α : Type} {f : Nat → α → Nat} (grows : ∀ k a, k ≤ f k a) {m : Nat}
    {a : α} {l : List α} (ha : a ∈ l) (hm : ∀ k, m ≤ f k a) (k : Nat) : m ≤ l.foldl f k := by
  induction l generalizing k with
  | nil => exact absurd ha List.not_mem_nil
  | cons b rest ih =>
    rw [List.foldl_cons]
    rcases List.mem_cons.mp ha with e | ha
    · rw [← e]
      exact Nat.le_trans (hm k) (le_foldl grows rest (f k a))
    · exact ih ha (f k b)

/-- No body is longer than the longest one. -/
theorem length_le_longestBody {g : Grammar} {a : Symbol} {body : Body} (h : body ∈ g.rulesOf a) :
    body.length ≤ longestBody g := by
  obtain ⟨bodies, hentry, hmem⟩ := Components.mem_rulesOf_iff_mem_entries.mp h
  have hinner : ∀ (k : Nat) (b : Body), k ≤ max k b.length := fun k b => Nat.le_max_left _ _
  refine le_foldl_of_mem (fun k entry => le_foldl hinner entry.2 k) hentry (fun k => ?_) 1
  exact le_foldl_of_mem hinner hmem (fun k => Nat.le_max_right _ _) k

/-- The longest body counts as one symbol at least. -/
theorem longestBody_pos (g : Grammar) : 1 ≤ longestBody g := by
  have hinner : ∀ (k : Nat) (b : Body), k ≤ max k b.length := fun k b => Nat.le_max_left _ _
  have houter : ∀ (k : Nat) (entry : Symbol × List Body),
      k ≤ entry.2.foldl (fun most body => max most body.length) k :=
    fun k entry => le_foldl hinner entry.2 k
  exact le_foldl houter g.rules.entries 1

/-- A variable that is opened costs a part of the budget. -/
theorem potential_enter_lt {node size : Nat} {body unread : Body} {below : List Frame}
    {e e' : Nat} (hb : body.length ≤ longestBody p.grammar) (he : e' + 1 ≤ e) :
    p.potential (⟨size, body⟩ :: ⟨node, unread⟩ :: below) e' <
      p.potential (⟨node, x :: unread⟩ :: below) e := by
  have hmul : (longestBody p.grammar + 1) * (e' + 1) ≤ (longestBody p.grammar + 1) * e :=
    Nat.mul_le_mul_left _ he
  rw [Nat.mul_add, Nat.mul_one] at hmul
  simp only [potential, List.flatMap_cons, List.length_append, List.length_cons]
  omega

/-- A variable that is opened on a chain to the current token takes the next
step of the chain from the budget. -/
theorem Predictive.enter_lt (d : p.Predictive) {node k e : Nat} {body unread : Body}
    {below : List Frame} (mem : x ∈ p.grammar.vars) (chosen : p.chosenRule x s = some (k, body))
    (near : p.grammar.Nearest n x t) (ne : t ≠ .epsilon)
    (unit : (p.current s).unit = p.unitOf t) (before : s.cursor + 1 < p.stream.size)
    (he : p.grammar.vars.size * (p.ahead s - 1) + n ≤ e) :
    ∃ e', p.Budget { s with trace := s.trace ++ [k], tree := s.tree.grow node x none }
        (⟨s.tree.size, body⟩ :: ⟨node, unread⟩ :: below) e' ∧
      p.potential (⟨s.tree.size, body⟩ :: ⟨node, unread⟩ :: below) e' <
        p.potential (⟨node, x :: unread⟩ :: below) e := by
  have hlength := length_le_longestBody (mem_rulesOf_of_chosenRule chosen)
  obtain ⟨m, hm⟩ := near.1.exists_succ mem
  rw [hm] at near he
  obtain ⟨y, hy, hnear⟩ := d.nearest_of_chosenRule near ne unit chosen
  cases body with
  | nil => cases hy
  | cons z rest =>
    rw [← Option.some.inj hy] at hnear
    refine ⟨_, .aimed hnear ne unit before, potential_enter_lt hlength ?_⟩
    simp only [ahead] at he ⊢
    omega

/-- Every move leaves a budget for which fewer steps suffice. -/
theorem Predictive.potential_lt (d : p.Predictive) {stack frames : List Frame}
    {next : ParseState} {e : Nat} (hb : p.Budget s stack e) (hm : p.Move s stack next frames) :
    ∃ e', p.Budget next frames e' ∧ p.potential frames e' < p.potential stack e := by
  cases hm with
  | leave =>
    cases hb with
    | idle =>
      refine ⟨_, .idle, ?_⟩
      simp only [potential, List.flatMap_cons, List.nil_append, List.length_cons]
      omega
  | @vanish node k x unread below mem chosen =>
    cases hb with
    | idle =>
      refine ⟨_, .idle, ?_⟩
      simp only [potential, ahead, List.flatMap_cons, List.length_append, List.length_cons]
      omega
    | @aimed _ n _ t _ _ near ne unit before =>
      -- the chain goes on, so that the empty string is not chosen
      obtain ⟨m, hm⟩ := near.1.exists_succ mem
      rw [hm] at near
      obtain ⟨y, hy, hnear⟩ := d.nearest_of_chosenRule near ne unit chosen
      have hempty : .epsilon ∉ p.grammar.vars := fun hv =>
        absurd (d.closed.vars_nonterminal _ hv) Bool.false_ne_true
      rw [← Option.some.inj hy] at hnear
      exact absurd (hnear.1.eq_of_notMem hempty) ne
  | @enter node k x body unread below mem chosen nonempty =>
    cases hb with
    | idle =>
      obtain ⟨n, t, near, ne, unit, before⟩ := d.exists_nearest chosen nonempty
      have hle := near.le_size
      have hahead : p.ahead s = p.ahead s - 1 + 1 := by
        simp only [ahead]
        omega
      refine d.enter_lt mem chosen near ne unit before ?_
      rw [hahead, Nat.add_sub_cancel, Nat.mul_add, Nat.mul_one]
      omega
    | aimed near ne unit before =>
      exact d.enter_lt mem chosen near ne unit before (Nat.le_refl _)
  | @take node x unread below notMem unit =>
    refine ⟨_, .idle, ?_⟩
    have hahead : ∀ tree, p.ahead { s with cursor := s.cursor + 1, tree } = p.ahead s - 1 := by
      intro tree
      simp only [ahead]
      omega
    have hle : p.grammar.vars.size * (p.ahead s - 1) ≤ e := by
      cases hb with
      | idle => exact Nat.mul_le_mul_left _ (Nat.sub_le _ _)
      | aimed => exact Nat.le_add_right _ _
    have hmul := Nat.mul_le_mul_left (longestBody p.grammar + 1) hle
    rw [hahead]
    simp only [potential, List.flatMap_cons, List.length_append, List.length_cons]
    omega

/-- The limit of a parse exceeds the potential at the beginning. -/
theorem potential_lt_stepLimit {body : Body} (hb : body.length ≤ longestBody p.grammar)
    (node : Nat) (k : Nat) :
    p.potential [⟨node, body⟩] (p.grammar.vars.size * p.ahead (p.openedState k)) <
      p.stepLimit := by
  have hvars : 0 < p.grammar.vars.size :=
    List.length_pos_of_mem (SymbolSet.mem_members.mpr p.grammar.valid.start_mem)
  have hlongest := longestBody_pos p.grammar
  have hsize : 0 < p.stream.size := p.stream.nonempty
  rw [potential, stepLimit, ahead]
  dsimp only [openedState]
  generalize p.grammar.vars.size = v at hvars ⊢
  generalize longestBody p.grammar = b at hlongest hb ⊢
  generalize p.stream.size = m at hsize ⊢
  have hpow : b + 1 ≤ Nat.pow (b + 1) v := Nat.le_self_pow (by omega) (b + 1)
  have hinner : 1 + v * (m - 1) ≤ m * (1 + m * v * b) := by
    have hfirst : v * (m - 1) ≤ m * v * b := by
      calc v * (m - 1) ≤ v * m := Nat.mul_le_mul_left v (Nat.sub_le m 1)
        _ = m * v * 1 := by rw [Nat.mul_one, Nat.mul_comm]
        _ ≤ m * v * b := Nat.mul_le_mul_left _ hlongest
    calc 1 + v * (m - 1) ≤ 1 * (1 + m * v * b) := by omega
      _ ≤ m * (1 + m * v * b) := Nat.mul_le_mul_right _ hsize
  have htotal := Nat.mul_le_mul hinner hpow
  rw [Nat.add_mul, Nat.one_mul, Nat.mul_comm (v * (m - 1))] at htotal
  have hflat : ([⟨node, body⟩].flatMap Frame.unread).length = body.length := by
    rw [List.flatMap_singleton]
  rw [hflat, List.length_singleton, Nat.sub_zero]
  omega

/-- A parse of a predictive parser halts. -/
theorem Predictive.exists_parse (d : p.Predictive) : ∃ o, p.parse = some o := by
  have falls : ∀ s stack next frames m, p.Visits s stack →
      (∃ e, p.Budget s stack e ∧ p.potential stack e = m) → p.Move s stack next frames →
      ∃ k < m, ∃ e, p.Budget next frames e ∧ p.potential frames e = k := by
    intro s stack next frames m _ ⟨e, hb, he⟩ hmove
    obtain ⟨e', hb', hlt⟩ := d.potential_lt hb hmove
    exact ⟨p.potential frames e', he ▸ hlt, e', hb', rfl⟩
  refine exists_parse_of_opened fun k body hc hv => ?_
  have hlength := length_le_longestBody (mem_rulesOf_of_chosenRule hc)
  exact hv.exists_run falls ⟨_, .idle, rfl⟩ (potential_lt_stepLimit hlength 0 k)

end Parser

end PredictiveParsing
