import PredictiveParsing.Proofs.Descent.Termination

/-!
# The limit of a parse suffices for every descent that ends

What is done with a symbol depends on the number of tokens ahead only. So a
frame that is read to its end, or breaks off, takes a number of steps that
depends on its unread symbols and the tokens ahead, whatever lies below it.
A variable that were opened inside itself with as many tokens ahead would take
as many steps inside as outside, although it takes fewer. Hence the variables
that are open since the last token was taken all differ if the descent ends,
and openings nest no deeper than there are variables. This bounds the steps by
the limit of a parse, whether the grammar has left recursion or not.
-/

namespace PredictiveParsing.Parser

/-- What a descent does with a symbol. -/
inductive Reaction where
  /-- The symbol is rejected. -/
  | reject
  /-- The variable is replaced by the empty string. -/
  | vanish
  /-- The variable is opened. -/
  | enter (body : Body)
  /-- The current token is taken. -/
  | take

/-- What a descent does with a symbol where a number of tokens is ahead. -/
def reaction (p : Parser) (x : Symbol) (i : Nat) : Reaction :=
  let unit := (p.stream.token (p.stream.size - 1 - i)).unit
  if x ∈ p.grammar.vars then
    match p.select x unit with
    | none => .reject
    | some k =>
      let body := (p.grammar.rulesOf x)[k]?.getD epsilonBody
      if body = epsilonBody then .vanish else .enter body
  else if unit = p.unitOf x then .take else .reject

/-- The steps in which a list of symbols is read where a number of tokens is
ahead, with the number of tokens that are ahead then, if no symbol is
rejected. -/
inductive Spends (p : Parser) : List Symbol → Nat → Nat → Option Nat → Prop
  /-- There is nothing to read. -/
  | nil {i : Nat} : Spends p [] i 0 (some i)
  /-- The first symbol is rejected. -/
  | rejected {x : Symbol} {unread : List Symbol} {i : Nat} (reacts : p.reaction x i = .reject) :
      Spends p (x :: unread) i 1 none
  /-- The first symbol vanishes. -/
  | vanished {x : Symbol} {unread : List Symbol} {i n : Nat} {left : Option Nat}
      (reacts : p.reaction x i = .vanish) (rest : Spends p unread i n left) :
      Spends p (x :: unread) i (1 + n) left
  /-- The first symbol is opened, its body read, and its frame left. -/
  | opened {x : Symbol} {body unread : List Symbol} {i j m n : Nat} {left : Option Nat}
      (reacts : p.reaction x i = .enter body) (inner : Spends p body i m (some j))
      (rest : Spends p unread j n left) : Spends p (x :: unread) i (m + 2 + n) left
  /-- The first symbol is opened, and a symbol of its body is rejected. -/
  | broken {x : Symbol} {body unread : List Symbol} {i m : Nat}
      (reacts : p.reaction x i = .enter body) (inner : Spends p body i m none) :
      Spends p (x :: unread) i (m + 1) none
  /-- The first symbol takes a token. -/
  | taken {x : Symbol} {unread : List Symbol} {i n : Nat} {left : Option Nat}
      (reacts : p.reaction x i = .take) (rest : Spends p unread (i - 1) n left) :
      Spends p (x :: unread) i (1 + n) left

variable {p : Parser} {s next : ParseState} {x : Symbol} {body unread : List Symbol}
  {opened : List Symbol} {below : List Frame} {node depth i j m n : Nat} {left : Option Nat}
  {o : Outcome Unit}

/-- The steps are determined by the symbols and the tokens ahead. -/
theorem Spends.unique (h : p.Spends unread i n left) {n' : Nat} {left' : Option Nat}
    (h' : p.Spends unread i n' left') : n = n' ∧ left = left' := by
  induction h generalizing n' left' with
  | nil =>
    cases h'
    exact ⟨rfl, rfl⟩
  | rejected reacts =>
    cases h' with
    | rejected => exact ⟨rfl, rfl⟩
    | vanished reacts' | opened reacts' | broken reacts' | taken reacts' =>
      cases reacts.symm.trans reacts'
  | vanished reacts _ ih =>
    cases h' with
    | vanished _ rest' =>
      obtain ⟨rfl, rfl⟩ := ih rest'
      exact ⟨rfl, rfl⟩
    | rejected reacts' | opened reacts' | broken reacts' | taken reacts' =>
      cases reacts.symm.trans reacts'
  | opened reacts _ _ ihi ihr =>
    cases h' with
    | opened reacts' inner' rest' =>
      cases reacts.symm.trans reacts'
      obtain ⟨rfl, hj⟩ := ihi inner'
      cases hj
      obtain ⟨rfl, rfl⟩ := ihr rest'
      exact ⟨rfl, rfl⟩
    | broken reacts' inner' =>
      cases reacts.symm.trans reacts'
      cases (ihi inner').2
    | rejected reacts' | vanished reacts' | taken reacts' => cases reacts.symm.trans reacts'
  | broken reacts _ ih =>
    cases h' with
    | broken reacts' inner' =>
      cases reacts.symm.trans reacts'
      obtain ⟨rfl, -⟩ := ih inner'
      exact ⟨rfl, rfl⟩
    | opened reacts' inner' =>
      cases reacts.symm.trans reacts'
      cases (ih inner').2
    | rejected reacts' | vanished reacts' | taken reacts' => cases reacts.symm.trans reacts'
  | taken reacts _ ih =>
    cases h' with
    | taken _ rest' =>
      obtain ⟨rfl, rfl⟩ := ih rest'
      exact ⟨rfl, rfl⟩
    | rejected reacts' | vanished reacts' | opened reacts' | broken reacts' =>
      cases reacts.symm.trans reacts'

/-! ### A run spends the steps of its first frame -/

/-- The current token is the one that the tokens ahead tell. -/
theorem token_ahead (p : Parser) (s : ParseState) :
    p.stream.token (p.stream.size - 1 - p.ahead s) = p.current s := by
  rw [ahead, current]
  by_cases h : s.cursor ≤ p.stream.size - 1
  · rw [Nat.sub_sub_self h]
  · rw [p.stream.token_eq_last (by omega), p.stream.token_eq_last (by omega)]

/-- The reaction to a variable is its chosen rule. -/
theorem reaction_of_chosenRule {k : Nat} (hx : x ∈ p.grammar.vars)
    (hc : p.chosenRule x s = some (k, body)) :
    p.reaction x (p.ahead s) = if body = epsilonBody then .vanish else .enter body := by
  obtain ⟨i, hi, hbody, -⟩ := chosenRule_eq_some hc
  rw [reaction, token_ahead]
  dsimp only
  rw [if_pos hx, hi]
  dsimp only
  rw [hbody, Option.getD_some]

/-- The reaction to a symbol that matches the current token. -/
theorem reaction_of_unit (hx : x ∉ p.grammar.vars) (hu : (p.current s).unit = p.unitOf x) :
    p.reaction x (p.ahead s) = .take := by
  rw [reaction, token_ahead]
  dsimp only
  rw [if_neg hx, if_pos hu]

/-- The reaction to a symbol that a state rejects. -/
theorem reaction_of_rejects {e : SyntaxError} (h : p.Rejects s x e) :
    p.reaction x (p.ahead s) = .reject := by
  rw [reaction, token_ahead]
  dsimp only
  cases h with
  | head mem none => rw [if_pos mem, Option.map_eq_none_iff.mp none]
  | unit notMem ne => rw [if_neg notMem, if_neg ne]

/-- How a run gets over its first frame in the steps that the frame spends. -/
inductive Crosses (p : Parser) (limit : Nat) (o : Outcome Unit) (s : ParseState) (node : Nat)
    (unread : List Symbol) (below : List Frame) : Prop
  /-- A symbol is rejected. -/
  | broken {n : Nat} (spends : p.Spends unread (p.ahead s) n none)
      (ends : ∀ k, p.run (n + k) s (⟨node, unread⟩ :: below) = some o)
  /-- Everything is read. -/
  | read {n : Nat} {t : ParseState} (le : n ≤ limit)
      (spends : p.Spends unread (p.ahead s) n (some (p.ahead t)))
      (goes : ∀ k, p.run (n + k) s (⟨node, unread⟩ :: below) = p.run k t (⟨node, []⟩ :: below))

/-- A step that leads on is one of the run. -/
theorem run_of_step {stack frames : List Frame} (h : p.step s stack = .running next frames)
    (k : Nat) : p.run (1 + k) s stack = p.run k next frames := by
  rw [Nat.add_comm, run, h]

/-- Steps in which the first symbol is read come before the others. -/
theorem Crosses.prepend {limit total : Nat} (h : p.Crosses limit o next node unread below)
    (goes : ∀ k, p.run (m + k) s (⟨node, x :: unread⟩ :: below) =
      p.run k next (⟨node, unread⟩ :: below))
    (spends : ∀ n left, p.Spends unread (p.ahead next) n left →
      p.Spends (x :: unread) (p.ahead s) (m + n) left)
    (hle : m + limit ≤ total) : p.Crosses total o s node (x :: unread) below := by
  cases h with
  | @broken n rest ends =>
    refine .broken (spends n _ rest) fun k => ?_
    rw [Nat.add_assoc, goes, ends]
  | @read n t le rest others =>
    refine .read (by omega) (spends n _ rest) fun k => ?_
    rw [Nat.add_assoc, goes, others]

/-- A run that ends gets over its first frame. -/
theorem crosses_of_run {limit : Nat} (h : p.run limit s (⟨node, unread⟩ :: below) = some o) :
    p.Crosses limit o s node unread below := by
  induction limit using Nat.strongRecOn generalizing s node unread below with
  | ind limit ih =>
  match unread, limit with
  | [], limit => exact .read (Nat.zero_le limit) .nil fun k => by rw [Nat.zero_add]
  | x :: unread, 0 => cases h
  | x :: unread, limit + 1 =>
    have hlimit : 1 + limit ≤ limit + 1 := Nat.le_of_eq (Nat.add_comm 1 limit)
    rw [run] at h
    cases hs : p.step s (⟨node, x :: unread⟩ :: below) with
    | finished last => cases (eq_nil_of_step hs).1
    | failed last e =>
      rw [hs] at h
      obtain ⟨_, _, _, _, hstack, -, hr⟩ := rejects_of_step hs
      cases hstack
      refine .broken (.rejected (reaction_of_rejects hr)) fun k => ?_
      rw [Nat.add_comm, run, hs]
      exact h
    | running next frames =>
      rw [hs] at h
      dsimp only at h
      have hstep := run_of_step hs
      cases move_of_step hs with
      | vanish mem chosen =>
        have hreacts := reaction_of_chosenRule mem chosen
        rw [if_pos rfl] at hreacts
        exact (ih limit (Nat.lt_succ_self _) h).prepend hstep
          (fun _ _ rest => .vanished hreacts rest) hlimit
      | @enter _ _ _ body _ _ mem chosen ne =>
        have hreacts := reaction_of_chosenRule mem chosen
        rw [if_neg ne] at hreacts
        cases ih limit (Nat.lt_succ_self _) h with
        | @broken m inner ends =>
          refine .broken (.broken hreacts inner) fun k => ?_
          rw [Nat.add_comm m, Nat.add_assoc, hstep, ends]
        | @read m t le inner goes =>
          -- what the limit leaves is spent on the frame of the body and the frames below
          obtain ⟨rest, hrest⟩ := Nat.exists_eq_add_of_le le
          rw [hrest, goes] at h
          cases rest with
          | zero => cases h
          | succ rest =>
            have hgoes : ∀ k, p.run (m + 2 + k) s (⟨node, x :: unread⟩ :: below) =
                p.run k t (⟨node, unread⟩ :: below) := by
              intro k
              have hk : m + 2 + k = 1 + (m + (1 + k)) := by omega
              rw [hk, hstep, goes, run_of_step rfl]
            exact (ih rest (by omega) h).prepend hgoes
              (fun _ _ others => .opened hreacts inner others) (by omega)
      | take notMem unit =>
        have hreacts := reaction_of_unit notMem unit
        refine (ih limit (Nat.lt_succ_self _) h).prepend hstep (fun _ _ rest => ?_) hlimit
        exact .taken hreacts rest

/-! ### Openings nest no deeper than there are variables -/

/-- Variables that are open while a number of further steps is spent, all
opened with as many tokens ahead. -/
structure Open (p : Parser) (opened : List Symbol) (i n : Nat) : Prop where
  /-- They differ. -/
  nodup : opened.Nodup
  /-- Each of them spends the further steps and more. -/
  spends : ∀ y ∈ opened, ∃ body m left,
    p.reaction y i = .enter body ∧ p.Spends body i m left ∧ n ≤ m

/-- A variable that is opened is one, and its body is no longer than the
longest. -/
theorem of_reaction_eq_enter (h : p.reaction x i = .enter body) :
    x ∈ p.grammar.vars ∧ body.length ≤ longestBody p.grammar := by
  rw [reaction] at h
  dsimp only at h
  split at h
  · next hx =>
    split at h
    · cases h
    · next k hk =>
      obtain ⟨chosen, hchosen⟩ := exists_body_of_select hk
      rw [hchosen, Option.getD_some] at h
      split at h
      · cases h
      · cases h
        exact ⟨hx, length_le_longestBody (List.mem_of_getElem? hchosen)⟩
  · split at h <;> cases h

namespace Open

/-- Nothing is open at the beginning. -/
theorem nil (p : Parser) (i n : Nat) : p.Open [] i n :=
  ⟨List.nodup_nil, fun _ hy => absurd hy List.not_mem_nil⟩

/-- Variables that spend a number of steps spend fewer ones as well. -/
theorem mono (h : p.Open opened i n) (hle : m ≤ n) : p.Open opened i m := by
  refine ⟨h.nodup, fun y hy => ?_⟩
  obtain ⟨body, k, left, hreacts, hspends, hk⟩ := h.spends y hy
  exact ⟨body, k, left, hreacts, hspends, Nat.le_trans hle hk⟩

/-- There are no more of them than there are variables. -/
theorem length_le (h : p.Open opened i n) : opened.length ≤ p.grammar.vars.size := by
  have hsub : opened ⊆ p.grammar.vars.members := by
    intro y hy
    obtain ⟨body, m, left, hreacts, -⟩ := h.spends y hy
    exact (of_reaction_eq_enter hreacts).1
  exact (h.nodup.subperm hsub).length_le

/-- A variable that is opened inside others differs from them: inside itself
it would take as many steps as outside, and one more. -/
theorem cons (h : p.Open opened i n) (hreacts : p.reaction x i = .enter body)
    (hspends : p.Spends body i m left) (hlt : m < n) : p.Open (x :: opened) i m := by
  refine ⟨List.nodup_cons.mpr ⟨fun hx => ?_, h.nodup⟩, List.forall_mem_cons.mpr ⟨?_, ?_⟩⟩
  · obtain ⟨body', m', left', hreacts', hspends', hle⟩ := h.spends x hx
    cases hreacts.symm.trans hreacts'
    have heq := (hspends.unique hspends').1
    omega
  · exact ⟨body, m, left, hreacts, hspends, Nat.le_refl m⟩
  · exact (h.mono (Nat.le_of_lt hlt)).spends

end Open

/-! ### The steps that are spent -/

/-- The steps that a number of symbols spends at most where openings nest no
deeper than a number until a token is taken. -/
inductive Within (p : Parser) (depth length i n left : Nat) : Prop
  /-- No token need be taken. -/
  | still (le : left ≤ i) (steps : n ≤ length * symbolCost p.grammar depth)
  /-- A token is taken, behind which openings may nest again. -/
  | moved (lt : left < i)
      (steps : n + left * p.tokenCost + p.tokenCost ≤
        length * symbolCost p.grammar p.grammar.vars.size +
          depth * (longestBody p.grammar * symbolCost p.grammar p.grammar.vars.size) +
          i * p.tokenCost)

/-- A symbol takes more steps where openings nest deeper. -/
theorem symbolCost_mono (g : Grammar) {depth deeper : Nat} (h : depth ≤ deeper) :
    symbolCost g depth ≤ symbolCost g deeper := by
  induction h with
  | refl => exact Nat.le_refl _
  | @step deeper _ ih =>
    refine Nat.le_trans ih ?_
    have hmul := Nat.mul_le_mul_right (symbolCost g deeper) (longestBody_pos g)
    rw [symbolCost]
    omega

/-- Fewer tokens ahead save the cost of one at least. -/
theorem tokenCost_le {j : Nat} (p : Parser) (h : j < i) :
    j * p.tokenCost + p.tokenCost ≤ i * p.tokenCost := by
  rw [← Nat.succ_mul]
  exact Nat.mul_le_mul_right _ h

namespace Within

variable {length : Nat}

/-- Nothing is spent. -/
theorem nothing (p : Parser) (depth length i : Nat) : p.Within depth length i 0 0 :=
  .still (Nat.zero_le i) (Nat.zero_le _)

/-- Where openings nest as deep as there are variables. -/
theorem settled (h : p.Within p.grammar.vars.size length i n j) : j ≤ i ∧
    n + j * p.tokenCost ≤
      length * symbolCost p.grammar p.grammar.vars.size + i * p.tokenCost := by
  cases h with
  | still le steps =>
    have hmul := Nat.mul_le_mul_right p.tokenCost le
    exact ⟨le, by omega⟩
  | moved lt steps =>
    have htoken : p.tokenCost = p.grammar.vars.size *
      (longestBody p.grammar * symbolCost p.grammar p.grammar.vars.size) := rfl
    exact ⟨Nat.le_of_lt lt, by omega⟩

/-- A symbol in front that takes no token. -/
theorem cons (h : p.Within depth length i n j) (hdepth : depth ≤ p.grammar.vars.size)
    (hm : m ≤ symbolCost p.grammar depth) : p.Within depth (length + 1) i (m + n) j := by
  cases h with
  | still le steps => exact .still le (by rw [Nat.add_mul]; omega)
  | moved lt steps =>
    have hmono := symbolCost_mono p.grammar hdepth
    exact .moved lt (by rw [Nat.add_mul]; omega)

/-- A symbol in front that takes tokens. -/
theorem cons_moved {k : Nat} (h : p.Within p.grammar.vars.size length k n j) (hk : k < i)
    (hm : m + k * p.tokenCost + p.tokenCost ≤ symbolCost p.grammar p.grammar.vars.size +
      depth * (longestBody p.grammar * symbolCost p.grammar p.grammar.vars.size) +
      i * p.tokenCost) : p.Within depth (length + 1) i (m + n) j := by
  obtain ⟨hj, hsteps⟩ := h.settled
  exact .moved (Nat.lt_of_le_of_lt hj hk) (by rw [Nat.add_mul]; omega)

end Within

/-- A body with the steps in which its variable is opened and left costs no
more than a symbol, if no token is taken. -/
theorem Open.opening (h : p.Open (x :: opened) i m) (hreacts : p.reaction x i = .enter body)
    (hw : p.Within (p.grammar.vars.size - (x :: opened).length) body.length i m j) :
    (j ≤ i ∧ m + 2 ≤ symbolCost p.grammar (p.grammar.vars.size - opened.length)) ∨
    (j < i ∧ m + 2 + j * p.tokenCost + p.tokenCost ≤
      symbolCost p.grammar p.grammar.vars.size + (p.grammar.vars.size - opened.length) *
        (longestBody p.grammar * symbolCost p.grammar p.grammar.vars.size) + i * p.tokenCost) := by
  have hlength := (of_reaction_eq_enter hreacts).2
  have hnest := h.length_le
  rw [List.length_cons] at hnest hw
  have hdepth : p.grammar.vars.size - opened.length =
      p.grammar.vars.size - (opened.length + 1) + 1 := by omega
  have hmono := symbolCost_mono p.grammar (Nat.sub_le p.grammar.vars.size opened.length)
  rw [hdepth, symbolCost] at hmono
  rw [hdepth]
  cases hw with
  | still le steps =>
    have hmul := Nat.mul_le_mul_right
      (symbolCost p.grammar (p.grammar.vars.size - (opened.length + 1))) hlength
    refine .inl ⟨le, ?_⟩
    rw [symbolCost]
    omega
  | moved lt steps =>
    have hmul := Nat.mul_le_mul_right (symbolCost p.grammar p.grammar.vars.size) hlength
    refine .inr ⟨lt, ?_⟩
    rw [Nat.succ_mul]
    omega

/-- A reading spends no more steps than its symbols cost. -/
theorem Spends.within (h : p.Spends unread i n left) (hopen : p.Open opened i n) :
    p.Within (p.grammar.vars.size - opened.length) unread.length i n (left.getD 0) := by
  induction h generalizing opened with
  | nil => exact .still (Nat.le_refl _) (Nat.zero_le _)
  | @rejected _ unread i reacts =>
    exact (Within.nothing p _ _ i).cons (Nat.sub_le _ _) (symbolCost_pos _ _)
  | vanished reacts rest ih =>
    exact (ih (hopen.mono (Nat.le_add_left _ _))).cons (Nat.sub_le _ _) (symbolCost_pos _ _)
  | @opened _ _ unread i j m n left reacts inner rest ihi ihr =>
    have hinner := hopen.cons reacts inner (by omega)
    have hbody := ihi hinner
    rw [Option.getD_some] at hbody
    rcases hinner.opening reacts hbody with ⟨hle, hm⟩ | ⟨hlt, hm⟩
    · rcases Nat.eq_or_lt_of_le hle with rfl | hlt
      · exact (ihr (hopen.mono (Nat.le_add_left _ _))).cons (Nat.sub_le _ _) hm
      · have hmono := symbolCost_mono p.grammar (Nat.sub_le p.grammar.vars.size opened.length)
        have htoken := p.tokenCost_le hlt
        exact (ihr (.nil p j n)).cons_moved hlt (by omega)
    · exact (ihr (.nil p j n)).cons_moved hlt hm
  | @broken _ _ unread i m reacts inner ih =>
    have hinner := hopen.cons reacts inner (Nat.lt_succ_self m)
    -- behind the rejected symbol nothing is read any more
    rcases hinner.opening reacts (ih hinner) with ⟨-, hm⟩ | ⟨hlt, hm⟩
    · exact (Within.nothing p _ _ i).cons (Nat.sub_le _ _) (by omega)
    · exact (Within.nothing p _ _ 0).cons_moved hlt (by omega)
  | @taken _ unread i n left reacts rest ih =>
    cases i with
    | zero =>
      exact (ih (hopen.mono (Nat.le_add_left _ _))).cons (Nat.sub_le _ _) (symbolCost_pos _ _)
    | succ i =>
      have hpos := symbolCost_pos p.grammar p.grammar.vars.size
      have htoken := p.tokenCost_le (Nat.lt_add_one i)
      have hrest := ih (.nil p _ n)
      rw [Nat.add_sub_cancel] at hrest
      exact hrest.cons_moved (Nat.lt_add_one i) (by omega)

/-! ### The limit of a parse -/

/-- A reading from the start on spends fewer steps than the limit of a
parse. -/
theorem Spends.lt_stepLimit {k : Nat} (h : p.Spends body (p.ahead (p.openedState k)) n left)
    (hlength : body.length ≤ longestBody p.grammar) : n + 1 < p.stepLimit := by
  have hlimit := stepsLeft_lt_stepLimit hlength k
  have hsteps := (h.within (.nil p _ n)).settled.2
  rw [stepsLeft, settledCost_cons, frameCost, settledCost] at hlimit
  omega

/-- A run from the opened start symbol that ends does so within the limit of a
parse. -/
theorem run_stepLimit {k limit : Nat} (hlength : body.length ≤ longestBody p.grammar)
    (h : p.run limit (p.openedState k) [⟨0, body⟩] = some o) :
    p.run p.stepLimit (p.openedState k) [⟨0, body⟩] = some o := by
  cases crosses_of_run h with
  | @broken n spends ends =>
    have hn := spends.lt_stepLimit hlength
    exact run_mono (ends 0) (by omega)
  | @read n t le spends goes =>
    have hn := spends.lt_stepLimit hlength
    -- after the steps of the frame it is left, and the run ends
    have hlast : ∀ rest, p.run rest t [⟨0, []⟩] = some o → p.run 2 t [⟨0, []⟩] = some o := by
      intro rest hrest
      match rest with
      | 0 | 1 => cases hrest
      | rest + 2 => exact hrest
    obtain ⟨rest, hrest⟩ := Nat.exists_eq_add_of_le le
    rw [hrest, goes] at h
    have hrun : p.run (n + 2) (p.openedState k) [⟨0, body⟩] = some o := by
      rw [goes]
      exact hlast rest h
    exact run_mono hrun (by omega)

/-- A parse that ends at all ends within its limit. -/
theorem parse_eq_of_parseWithin {limit : Nat} (h : p.parseWithin limit = some o) :
    p.parse = some o := by
  obtain ⟨descent, hd, ho⟩ := Option.map_eq_some_iff.mp h
  refine Option.map_eq_some_iff.mpr ⟨descent, ?_, ho⟩
  rw [build] at hd ⊢
  cases he : p.expand p.grammar.start {} with
  | error e =>
    rw [he] at hd
    exact hd
  | ok out =>
    obtain ⟨next, frame⟩ := out
    rw [he] at hd
    rcases expand_eq_ok he with ⟨k, -, -, rfl⟩ | ⟨k, body, hc, -, rfl, rfl⟩
    · exact hd
    · obtain ⟨last, hlast, hdescent⟩ := Option.map_eq_some_iff.mp hd
      have hlength := length_le_longestBody (mem_rulesOf_of_chosenRule hc)
      exact Option.map_eq_some_iff.mpr ⟨last, run_stepLimit hlength hlast, hdescent⟩

/-- A parse without a result is one that never ends. -/
theorem parse_eq_none_iff : p.parse = none ↔ ∀ limit, p.parseWithin limit = none := by
  refine ⟨fun h limit => ?_, fun h => h p.stepLimit⟩
  cases ho : p.parseWithin limit with
  | none => rfl
  | some o =>
    rw [parse_eq_of_parseWithin ho] at h
    cases h

end PredictiveParsing.Parser
