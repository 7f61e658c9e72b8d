import PredictiveParsing.Proofs.Descent.Halting
import PredictiveParsing.Proofs.LeftCorner
import PredictiveParsing.Proofs.Reduction.UsefulSymbols

/-!
# Without left recursion every descent halts

A descent that cannot loop needs no determinism to halt. Between two tokens a
frame has read only symbols that vanished, so that every variable that is
opened then is a left corner of the variables that have been opened before it.
Without left recursion they all differ, and openings nest no deeper than there
are variables. A symbol takes a number of steps that depends on how deep
openings may still nest inside it. When a token is taken openings may nest
again, which costs a fixed number of steps for each token.
-/

namespace PredictiveParsing.Parser

/-- The conditions under which a descent cannot loop. -/
structure Unlooped (p : Parser) : Prop where
  /-- Symbols are declared by their kind. -/
  closed : p.grammar.Closed
  /-- There is no left recursion. -/
  not_recursive : ∀ a ∈ p.grammar.vars, ¬LeftRecursive p.grammar.rulesOf a
  /-- No terminal of a body has the unit of the end marker. -/
  unit_ne_end : ∀ t, t.isTerminal = true → p.grammar.Occurs t → p.unitOf t ≠ p.stream.endUnit

/-- The steps that a symbol takes at most where openings nest no deeper than a
number: the symbol is opened, its body read, and its frame left. -/
def symbolCost (g : Grammar) : Nat → Nat
  | 0 => 1
  | depth + 1 => 2 + longestBody g * symbolCost g depth

/-- The steps that a frame takes at most. -/
def frameCost (p : Parser) (depth : Nat) (unread : List Symbol) : Nat :=
  1 + unread.length * symbolCost p.grammar depth

/-- The steps that frames take at most where openings nest in all of them as
deep as there are variables. -/
def settledCost (p : Parser) : List Frame → Nat
  | [] => 0
  | frame :: below => p.frameCost p.grammar.vars.size frame.unread + settledCost p below

/-- How deep openings may still nest inside a variable that was opened inside
others. -/
def depthInside (p : Parser) (opened : List Symbol) : Nat :=
  p.grammar.vars.size - (opened.length + 1)

/-- A variable that was opened inside others, all of them since the last token
was taken, with the steps that the frames below take at most. -/
inductive Unfed (p : Parser) : Symbol → List Symbol → List Frame → Nat → Prop
  /-- Nothing else was opened since the last token. -/
  | settled {b : Symbol} {below : List Frame} (mem : b ∈ p.grammar.vars) :
      Unfed p b [] below (p.settledCost below)
  /-- The owner of the body was opened since then, and what precedes the
  variable in the body has vanished. -/
  | inside {b c : Symbol} {opened : List Symbol} {node n : Nat} {read unread : Body}
      {below : List Frame} (mem : b ∈ p.grammar.vars)
      (body : read ++ b :: unread ∈ p.grammar.rulesOf c)
      (vanished : Yields p.grammar.rulesOf read []) (outer : Unfed p c opened below n) :
      Unfed p b (c :: opened) (⟨node, unread⟩ :: below)
        (p.frameCost (p.depthInside opened) unread + n)

/-- The steps that a stack takes at most up to the next token. -/
inductive Cost (p : Parser) : List Frame → Nat → Prop
  /-- Nothing was opened since the last token. -/
  | settled {stack : List Frame} : Cost p stack (p.settledCost stack)
  /-- A variable was opened since then, and what was read of it has
  vanished. -/
  | reading {b : Symbol} {opened : List Symbol} {node n : Nat} {read unread : Body}
      {below : List Frame} (body : read ++ unread ∈ p.grammar.rulesOf b)
      (vanished : Yields p.grammar.rulesOf read []) (outer : Unfed p b opened below n) :
      Cost p (⟨node, unread⟩ :: below) (p.frameCost (p.depthInside opened) unread + n)

/-- What the openings behind one token may cost. -/
def tokenCost (p : Parser) : Nat :=
  p.grammar.vars.size * (longestBody p.grammar * symbolCost p.grammar p.grammar.vars.size)

/-- The steps that are left at most. -/
def stepsLeft (p : Parser) (s : ParseState) (cost : Nat) : Nat := cost + p.ahead s * p.tokenCost

variable {p : Parser} {s : ParseState} {b x : Symbol} {opened : List Symbol} {below : List Frame}
  {node n : Nat} {unread : Body}

/-- A symbol takes a step. -/
theorem symbolCost_pos (g : Grammar) (depth : Nat) : 1 ≤ symbolCost g depth := by
  cases depth with
  | zero => exact Nat.le_refl 1
  | succ depth =>
    rw [symbolCost]
    omega

/-- A symbol takes no more steps than twice the nodes of a full tree. -/
theorem symbolCost_succ_le (g : Grammar) (depth : Nat) :
    symbolCost g depth + 1 ≤ 2 * Nat.pow (longestBody g + 1) depth := by
  have hb := longestBody_pos g
  induction depth with
  | zero => exact Nat.le_refl 2
  | succ depth ih =>
    have hpow : Nat.pow (longestBody g + 1) (depth + 1) =
        Nat.pow (longestBody g + 1) depth * (longestBody g + 1) := rfl
    rw [symbolCost, hpow]
    generalize longestBody g = b at hb ih ⊢
    generalize symbolCost g depth = c at ih ⊢
    have hpos : 0 < Nat.pow (b + 1) depth := Nat.pow_pos (Nat.succ_pos b)
    generalize Nat.pow (b + 1) depth = q at ih hpos ⊢
    have hmul : b * (c + 1) ≤ b * (2 * q) := Nat.mul_le_mul_left b ih
    have hsplit : 2 * (q * (b + 1)) = b * (2 * q) + 2 * q := by
      rw [Nat.mul_add, Nat.mul_one, Nat.mul_add, Nat.mul_comm q b, Nat.mul_left_comm]
    rw [Nat.mul_add, Nat.mul_one] at hmul
    omega

/-- An unread symbol costs what the symbol costs. -/
theorem frameCost_cons (p : Parser) (depth : Nat) (x : Symbol) (unread : Body) :
    p.frameCost depth (x :: unread) = p.frameCost depth unread + symbolCost p.grammar depth := by
  rw [frameCost, frameCost, List.length_cons, Nat.add_mul, Nat.one_mul, Nat.add_assoc]

/-- A frame on top of others costs what its unread symbols cost. -/
theorem settledCost_cons (p : Parser) (node : Nat) (unread : Body) (below : List Frame) :
    p.settledCost (⟨node, unread⟩ :: below) =
      p.frameCost p.grammar.vars.size unread + p.settledCost below :=
  rfl

/-- What is unread behind a symbol is no longer than the longest body. -/
theorem length_unread_le {a : Symbol} {read : Body}
    (h : read ++ x :: unread ∈ p.grammar.rulesOf a) : unread.length ≤ longestBody p.grammar := by
  have hbody := length_le_longestBody h
  rw [List.length_append, List.length_cons] at hbody
  omega

/-- A body that is opened takes fewer steps than its owner. -/
theorem frameCost_lt_symbolCost {depth : Nat} {body : Body}
    (h : body.length ≤ longestBody p.grammar) :
    p.frameCost depth body < symbolCost p.grammar (depth + 1) := by
  have hmul := Nat.mul_le_mul_right (symbolCost p.grammar depth) h
  rw [frameCost, symbolCost]
  omega

namespace Unfed

/-- The variable is one. -/
theorem mem_vars (h : p.Unfed b opened below n) : b ∈ p.grammar.vars := by
  cases h with
  | settled mem => exact mem
  | inside mem => exact mem

/-- The variables around it are variables. -/
theorem subset_vars (h : p.Unfed b opened below n) : ∀ y ∈ opened, y ∈ p.grammar.vars := by
  induction h with
  | settled => exact fun y hy => absurd hy List.not_mem_nil
  | inside _ _ _ outer ih => exact List.forall_mem_cons.mpr ⟨outer.mem_vars, ih⟩

/-- It is a left corner of the variables around it. -/
theorem leftCorner (d : p.Unlooped) (h : p.Unfed b opened below n) :
    ∀ y ∈ opened, LeftCorner p.grammar.rulesOf y b := by
  induction h with
  | settled => exact fun y hy => absurd hy List.not_mem_nil
  | @inside b c _ _ _ _ _ _ mem body vanished outer ih =>
    have hne := d.closed.ne_epsilon_of_mem_vars mem
    have hc : LeftCorner p.grammar.rulesOf c b := by
      obtain ⟨m, rfl⟩ := d.closed.exists_name outer.mem_vars
      exact leftCorner_of_body body vanished hne
    exact List.forall_mem_cons.mpr ⟨hc, fun y hy => (ih y hy).trans hc⟩

/-- It differs from them, and they differ from each other. -/
theorem nodup (d : p.Unlooped) (h : p.Unfed b opened below n) : (b :: opened).Nodup := by
  have hnew : b ∉ opened := fun hb => d.not_recursive b h.mem_vars (h.leftCorner d b hb)
  refine List.nodup_cons.mpr ⟨hnew, ?_⟩
  induction h with
  | settled => exact List.nodup_nil
  | @inside _ c opened _ _ _ _ _ _ _ _ outer ih =>
    have hc : c ∉ opened := fun hc => d.not_recursive c outer.mem_vars (outer.leftCorner d c hc)
    exact List.nodup_cons.mpr ⟨hc, ih hc⟩

/-- So there are no more of them than there are variables. -/
theorem length_lt (d : p.Unlooped) (h : p.Unfed b opened below n) :
    opened.length < p.grammar.vars.size := by
  have hsub : b :: opened ⊆ p.grammar.vars.members :=
    List.forall_mem_cons.mpr ⟨h.mem_vars, h.subset_vars⟩
  exact ((h.nodup d).subperm hsub).length_le

/-- Where openings may nest again, each frame of an opened variable costs no
more than a whole body. -/
theorem settledCost_le (h : p.Unfed b opened below n) : p.settledCost below ≤
    n + opened.length *
      (longestBody p.grammar * symbolCost p.grammar p.grammar.vars.size) := by
  induction h with
  | settled => exact Nat.le_add_right _ _
  | @inside _ c opened _ n read unread below _ body _ _ ih =>
    have hmul := Nat.mul_le_mul_right (symbolCost p.grammar p.grammar.vars.size)
      (length_unread_le body)
    rw [settledCost_cons, frameCost, frameCost, List.length_cons, Nat.add_mul, Nat.one_mul]
    omega

end Unfed

/-- A variable vanishes where an alternative does. -/
theorem Unlooped.yields_nil (d : p.Unlooped) {body : Body} (hbody : body ∈ p.grammar.rulesOf b)
    (h : Yields p.grammar.rulesOf body []) : Yields p.grammar.rulesOf [b] [] :=
  (d.closed.yields_iff (Grammar.mem_vars_of_mem_rulesOf hbody)).mpr ⟨body, hbody, h⟩

/-- A symbol that has vanished is read, and the frame costs what is unread. -/
theorem Unfed.advance (outer : p.Unfed b opened below n) {read : Body}
    (body : read ++ x :: unread ∈ p.grammar.rulesOf b)
    (vanished : Yields p.grammar.rulesOf read []) (hx : Yields p.grammar.rulesOf [x] []) :
    p.Cost (⟨node, unread⟩ :: below) (p.frameCost (p.depthInside opened) unread + n) := by
  have hbody : (read ++ [x]) ++ unread ∈ p.grammar.rulesOf b := by
    rw [List.append_assoc]
    exact body
  exact .reading hbody (vanished.append hx) outer

/-- What is left of a variable that has vanished is a frame that was there
before. -/
theorem Unfed.leave (h : p.Unfed b opened below n) (hb : Yields p.grammar.rulesOf [b] []) :
    p.Cost below n := by
  cases h with
  | settled => exact .settled
  | inside _ body vanished outer => exact outer.advance body vanished hb

/-- A frame that is read to its end is left. -/
theorem Cost.leave (d : p.Unlooped) (h : p.Cost (⟨node, []⟩ :: below) n) :
    ∃ m < n, p.Cost below m := by
  cases h with
  | settled =>
    refine ⟨p.settledCost below, ?_, .settled⟩
    rw [settledCost_cons, frameCost]
    omega
  | @reading b opened _ n read _ _ body vanished outer =>
    rw [List.append_nil] at body
    refine ⟨n, ?_, outer.leave (d.yields_nil body vanished)⟩
    rw [frameCost]
    omega

/-- A variable that vanishes is a symbol less to read. -/
theorem Cost.vanish (h : p.Cost (⟨node, x :: unread⟩ :: below) n)
    (hx : Yields p.grammar.rulesOf [x] []) : ∃ m < n, p.Cost (⟨node, unread⟩ :: below) m := by
  cases h with
  | settled =>
    refine ⟨p.settledCost (⟨node, unread⟩ :: below), ?_, .settled⟩
    have hpos := symbolCost_pos p.grammar p.grammar.vars.size
    rw [settledCost_cons, settledCost_cons, frameCost_cons]
    omega
  | @reading b opened _ n read _ _ body vanished outer =>
    refine ⟨_, ?_, outer.advance body vanished hx⟩
    have hpos := symbolCost_pos p.grammar (p.depthInside opened)
    rw [frameCost_cons]
    omega

/-- A variable that is opened has another body inside, in which openings nest
one less deep. -/
theorem Cost.enter (d : p.Unlooped) (h : p.Cost (⟨node, x :: unread⟩ :: below) n) {size : Nat}
    {body : Body} (hbody : body ∈ p.grammar.rulesOf x) :
    ∃ m < n, p.Cost (⟨size, body⟩ :: ⟨node, unread⟩ :: below) m := by
  have hx := Grammar.mem_vars_of_mem_rulesOf hbody
  have hlength := length_le_longestBody hbody
  cases h with
  | settled =>
    have outer : p.Unfed x [] (⟨node, unread⟩ :: below) _ := .settled hx
    refine ⟨_, ?_, @Cost.reading p x [] size _ [] body _ hbody .nil outer⟩
    have hlt := @frameCost_lt_symbolCost p (p.depthInside []) body hlength
    have hdepth : p.depthInside [] + 1 = p.grammar.vars.size :=
      Nat.sub_add_cancel (outer.length_lt d)
    rw [hdepth] at hlt
    rw [settledCost_cons, settledCost_cons, frameCost_cons]
    omega
  | @reading b opened _ n read _ _ mem vanished outer =>
    have inner : p.Unfed x (b :: opened) (⟨node, unread⟩ :: below) _ :=
      .inside hx mem vanished outer
    refine ⟨_, ?_, @Cost.reading p x (b :: opened) size _ [] body _ hbody .nil inner⟩
    have hlt := @frameCost_lt_symbolCost p (p.depthInside (b :: opened)) body hlength
    have hdepth : p.depthInside (b :: opened) + 1 = p.depthInside opened := by
      have := inner.length_lt d
      rw [List.length_cons] at this
      rw [depthInside, depthInside, List.length_cons]
      omega
    rw [hdepth] at hlt
    rw [frameCost_cons]
    omega

/-- Behind a token openings may nest again, at the cost of one token. -/
theorem Cost.take (d : p.Unlooped) (h : p.Cost (⟨node, x :: unread⟩ :: below) n) :
    ∃ m < n + p.tokenCost, p.Cost (⟨node, unread⟩ :: below) m := by
  refine ⟨p.settledCost (⟨node, unread⟩ :: below), ?_, .settled⟩
  cases h with
  | settled =>
    have hpos := symbolCost_pos p.grammar p.grammar.vars.size
    rw [settledCost_cons, settledCost_cons, frameCost_cons]
    omega
  | @reading b opened _ n read _ _ body vanished outer =>
    have hbelow := outer.settledCost_le
    have hframe := Nat.mul_le_mul_right (symbolCost p.grammar p.grammar.vars.size)
      (length_unread_le body)
    have hopened := Nat.mul_le_mul_right
      (longestBody p.grammar * symbolCost p.grammar p.grammar.vars.size)
      (Nat.succ_le_of_lt (outer.length_lt d))
    have hpos := symbolCost_pos p.grammar (p.depthInside opened)
    rw [Nat.succ_eq_add_one, Nat.add_mul, Nat.one_mul] at hopened
    rw [settledCost_cons, tokenCost, frameCost_cons, frameCost, frameCost]
    omega

/-- Every move leaves fewer steps. -/
theorem Unlooped.stepsLeft_lt (d : p.Unlooped) {stack frames : List Frame} {next : ParseState}
    (hv : p.Visits s stack) (hc : p.Cost stack n) (hm : p.Move s stack next frames) :
    ∃ m, p.Cost frames m ∧ p.stepsLeft next m < p.stepsLeft s n := by
  -- moves that take no token leave as many tokens ahead
  have stays : ∀ {after : ParseState} {m : Nat}, after.cursor = s.cursor → m < n →
      p.stepsLeft after m < p.stepsLeft s n := by
    intro after m hcursor hlt
    rw [stepsLeft, stepsLeft, ahead, ahead, hcursor]
    omega
  cases hm with
  | leave =>
    obtain ⟨m, hlt, hm⟩ := hc.leave d
    exact ⟨m, hm, stays rfl hlt⟩
  | vanish mem chosen =>
    have heps := d.yields_nil (mem_rulesOf_of_chosenRule chosen) (yields_epsilonBody.mpr rfl)
    obtain ⟨m, hlt, hm⟩ := hc.vanish heps
    exact ⟨m, hm, stays rfl hlt⟩
  | enter mem chosen ne =>
    obtain ⟨m, hlt, hm⟩ := hc.enter d (mem_rulesOf_of_chosenRule chosen)
    exact ⟨m, hm, stays rfl hlt⟩
  | @take node x unread below notMem unit =>
    obtain ⟨m, hlt, hm⟩ := hc.take d
    refine ⟨m, hm, ?_⟩
    have hterminal := (tracks_of_visits d.closed hv).isTerminal notMem
    have hne := d.unit_ne_end x hterminal (underway_of_visits hv).occurs
    rw [← unit] at hne
    have hbefore : s.cursor + 1 < p.stream.size := cursor_lt_of_unit_ne hne
    have hahead : p.ahead s = p.stream.size - 1 - (s.cursor + 1) + 1 := by
      rw [ahead]
      omega
    rw [stepsLeft, stepsLeft, hahead, ahead, Nat.add_mul, Nat.one_mul]
    dsimp only
    omega

/-- The limit of a parse exceeds the steps that are left at the beginning. -/
theorem stepsLeft_lt_stepLimit {body : Body} (hb : body.length ≤ longestBody p.grammar)
    (k : Nat) : p.stepsLeft (p.openedState k) (p.settledCost [⟨0, body⟩]) < p.stepLimit := by
  have hvars : 0 < p.grammar.vars.size :=
    List.length_pos_of_mem (SymbolSet.mem_members.mpr p.grammar.valid.start_mem)
  have hlongest := longestBody_pos p.grammar
  have hsize : 0 < p.stream.size := p.stream.nonempty
  have hcost := symbolCost_succ_le p.grammar p.grammar.vars.size
  rw [stepsLeft, stepLimit, ahead, tokenCost, settledCost_cons, frameCost, settledCost]
  dsimp only [openedState]
  generalize p.grammar.vars.size = v at hvars hcost ⊢
  generalize longestBody p.grammar = b at hb hlongest hcost ⊢
  generalize p.stream.size = m at hsize ⊢
  generalize symbolCost p.grammar v = c at hcost ⊢
  have hbodies : b + (m - 1) * (v * b) ≤ m * (1 + m * v * b) := by
    have hone : b ≤ v * b := Nat.le_mul_of_pos_left b hvars
    have hlast : (m - 1) * (v * b) + v * b = m * (v * b) := by
      rw [← Nat.succ_mul, Nat.succ_eq_add_one, Nat.sub_add_cancel hsize]
    have hinner : v * b ≤ 1 + m * v * b := by
      have := Nat.le_mul_of_pos_left (v * b) hsize
      rw [← Nat.mul_assoc] at this
      omega
    have hall := Nat.mul_le_mul_left m hinner
    omega
  have htotal : (b + (m - 1) * (v * b)) * c ≤ m * (1 + m * v * b) * (2 * Nat.pow (b + 1) v) :=
    Nat.mul_le_mul hbodies (by omega)
  have hfirst := Nat.mul_le_mul_right c hb
  rw [Nat.add_mul, Nat.mul_assoc (m - 1), Nat.mul_assoc v,
    Nat.mul_left_comm (m * (1 + m * v * b))] at htotal
  rw [Nat.sub_zero]
  omega

/-- A parse that cannot loop halts. -/
theorem Unlooped.exists_parse (d : p.Unlooped) : ∃ o, p.parse = some o := by
  have falls : ∀ s stack next frames m, p.Visits s stack →
      (∃ n, p.Cost stack n ∧ p.stepsLeft s n = m) → p.Move s stack next frames →
      ∃ k < m, ∃ n, p.Cost frames n ∧ p.stepsLeft next n = k := by
    intro s stack next frames m hv ⟨n, hc, hn⟩ hmove
    obtain ⟨n', hc', hlt⟩ := d.stepsLeft_lt hv hc hmove
    exact ⟨p.stepsLeft next n', hn ▸ hlt, n', hc', rfl⟩
  refine exists_parse_of_opened fun k body hc hv => ?_
  have hlength := length_le_longestBody (mem_rulesOf_of_chosenRule hc)
  exact hv.exists_run falls ⟨_, .settled, rfl⟩ (stepsLeft_lt_stepLimit hlength k)

/-- A parser whose grammar has no left recursion, direct, indirect or behind
symbols that vanish, halts on tokens that end with a marker whose unit no
terminal of the grammar has: with a tree or with an error, within the limit of
a parse, so that longer runs end in the same way. The action table may have
conflicts. -/
theorem make_parse_halts {settings : Settings} {g : Grammar} {units : Option UnitMap}
    {tokens : List Token} {marker : Token} {p : Parser} (hg : g.Closed)
    (hp : make settings g units (tokens ++ [marker]) = .ok p)
    (hfree : ∀ a ∈ p.grammar.vars, ¬LeftRecursive p.grammar.rulesOf a)
    (hmarker : ∀ t, t.isTerminal = true → p.grammar.Occurs t → p.unitOf t ≠ marker.unit) :
    ∃ o, p.parse = some o ∧ ∀ limit, p.stepLimit ≤ limit → p.parseWithin limit = some o := by
  have hmade := made_of_make hp
  have d : p.Unlooped :=
    ⟨(hg.reduce hmade.reduced).1, hfree, fun t ht ho => hmade.marker_unit ▸ hmarker t ht ho⟩
  obtain ⟨o, ho⟩ := d.exists_parse
  exact ⟨o, ho, fun limit hle => parseWithin_mono ho hle⟩

/-- The parser of labelled conditionals halts, although an else part may belong
to either of two conditionals, so that the table has a conflict. -/
theorem make_parse_halts_labelledConditionals : Grammar.labelledConditionals.Closed ∧
    ∃ p o, make {} Grammar.labelledConditionals none
        (Token.ofNames ["label", "if", "label", "if", "act", "else", "act"] ++
          Token.ofNames ["end"]) = .ok p ∧
      p.isLL 1 = false ∧ p.parse = some o := by
  let rank : Symbol → Nat := fun a =>
    if a = .nonterminal "P" then 2 else if a = .nonterminal "S" then 1 else 0
  have hrun : ((make {} Grammar.labelledConditionals none
      (Token.ofNames ["label", "if", "label", "if", "act", "else", "act"] ++
        Token.ofNames ["end"])).toOption.bind fun p =>
          some (p.grammar.rules.entries.all fun entry =>
              entry.2.all (Grammar.ranksFront rank entry.1),
            p.grammar.rules.entries.all fun entry =>
              entry.2.all fun body => decide (Symbol.terminal "end" ∉ body),
            p.isLL 1)) = some (true, true, false) := by
    decide +kernel
  obtain ⟨p, hmake, hp⟩ := exists_of_make_bind hrun
  obtain ⟨hranks, hrest⟩ := Prod.mk.inj (Option.some.inj hp)
  obtain ⟨hnoend, hll⟩ := Prod.mk.inj hrest
  have hmade := made_of_make hmake
  have hvars := (Grammar.labelledConditionals_closed.reduce hmade.reduced).1.vars_nonterminal
  obtain ⟨o, ho, -⟩ := make_parse_halts Grammar.labelledConditionals_closed hmake
    (fun a ha => Grammar.not_leftRecursive_of_ranks rank hranks a (hvars a ha))
    (unitOf_ne_named hmade.units_eq hnoend)
  exact ⟨Grammar.labelledConditionals_closed, p, o, hmake, hll, ho⟩

end PredictiveParsing.Parser
