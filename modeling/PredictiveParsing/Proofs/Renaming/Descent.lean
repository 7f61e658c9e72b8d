import PredictiveParsing.Proofs.Descent.Halting
import PredictiveParsing.Proofs.Renaming.Lookahead

/-!
# Parses that differ in names only

Two parsers with the same stream, units and settings, where a renaming carries
the grammar of the one to that of the other, do the same step by step. Both
select the alternative at the same place, since the sets that decide hold the
same terminals; the nodes get corresponding labels and the same links, and an
error is the same but for the variable that it names. The rule numbers may
differ, as they show the display order.
-/

namespace PredictiveParsing

open Renaming

namespace ParseTree

/-- A tree with its labels renamed. -/
def rename (σ : Renaming) (t : ParseTree) : ParseTree :=
  { t with nodes := t.nodes.map fun n => { n with label := σ n.label } }

variable (σ : Renaming) (t : ParseTree)

/-- The tree without nodes has no labels. -/
theorem rename_empty : ({} : ParseTree).rename σ = {} :=
  eq_of_nodes Array.map_empty rfl

/-- A renamed tree has as many nodes. -/
theorem size_rename : (t.rename σ).nodes.size = t.nodes.size := Array.size_map

/-- A node that is added can be renamed before or after. -/
theorem rename_addNode (label : Symbol) (token : Option Token) :
    (t.addNode label token).1.rename σ = ((t.rename σ).addNode (σ label) token).1 :=
  eq_of_nodes Array.map_push rfl

/-- A change that does not touch labels can be made before or after a
renaming. -/
theorem rename_update (i : Nat) {f : ParseNode → ParseNode}
    (hf : ∀ n : ParseNode, f { n with label := σ n.label } = { f n with label := σ (f n).label }) :
    (t.update i f).rename σ = (t.rename σ).update i f :=
  eq_of_nodes (map_modify hf t.nodes i) rfl

/-- A link can be made before or after a renaming. -/
theorem rename_link (parent child : Nat) :
    (t.link parent child).rename σ = (t.rename σ).link parent child := by
  rw [link, rename_update, rename_update, link]
  · exact fun n => rfl
  · exact fun n => rfl

end ParseTree

/-- An error with the variable that it names renamed. -/
def SyntaxError.rename (σ : Renaming) : SyntaxError → SyntaxError
  | .mismatch expected token => .mismatch expected token
  | .noProduction head acceptable token => .noProduction (σ head) acceptable token
  | .other reason token => .other reason token

/-- States of parses that are at the same token with corresponding trees. -/
structure ParseState.Alike (σ : Renaming) (s t : ParseState) : Prop where
  /-- As many tokens are matched. -/
  cursor : t.cursor = s.cursor
  /-- The trees correspond. -/
  tree : t.tree = s.tree.rename σ

/-- Outcomes with states that are alike, and the same result or corresponding
errors. -/
structure Outcome.Alike {α : Type} (σ : Renaming) (o u : Outcome α) : Prop where
  /-- The states are alike. -/
  state : o.state.Alike σ u.state
  /-- The results are the same. -/
  result : u.result = o.result.mapError (SyntaxError.rename σ)

/-- The trees of states that are alike have as many nodes. -/
theorem ParseState.Alike.size_eq {σ : Renaming} {s t : ParseState} (h : s.Alike σ t) :
    t.tree.nodes.size = s.tree.nodes.size := by
  rw [h.tree, ParseTree.size_rename]

/-- A link keeps states alike. -/
theorem ParseState.Alike.linked {σ : Renaming} {s t : ParseState} (h : s.Alike σ t)
    (parent child : Nat) : (Parser.linked s parent child).Alike σ (Parser.linked t parent child) :=
  ⟨h.cursor, by rw [Parser.linked, Parser.linked, h.tree, ParseTree.rename_link]⟩

/-- A frame with its unread symbols renamed. -/
def Frame.rename (σ : Renaming) (f : Frame) : Frame := ⟨f.node, σ.body f.unread⟩

/-- Expansions that open corresponding frames, or vanish alike, or are refused
alike. -/
inductive Expanded (σ : Renaming) : Except SyntaxError (ParseState × Option Frame) →
    Except SyntaxError (ParseState × Option Frame) → Prop
  /-- Both are refused. -/
  | refused (e : SyntaxError) : Expanded σ (.error e) (.error (e.rename σ))
  /-- Both vanish. -/
  | vanished {s t : ParseState} (alike : s.Alike σ t) :
      Expanded σ (.ok (s, none)) (.ok (t, none))
  /-- Both open a frame. -/
  | opened {s t : ParseState} (frame : Frame) (alike : s.Alike σ t) :
      Expanded σ (.ok (s, some frame)) (.ok (t, some (frame.rename σ)))

/-- Steps that lead to configurations that are alike, or end alike. -/
inductive Progress.Alike (σ : Renaming) : Progress → Progress → Prop
  /-- Both go on. -/
  | running {s t : ParseState} (stack : List Frame) (alike : s.Alike σ t) :
      Alike σ (.running s stack) (.running t (stack.map (Frame.rename σ)))
  /-- Both are finished. -/
  | finished {s t : ParseState} (alike : s.Alike σ t) : Alike σ (.finished s) (.finished t)
  /-- Both fail. -/
  | failed {s t : ParseState} (e : SyntaxError) (alike : s.Alike σ t) :
      Alike σ (.failed s e) (.failed t (e.rename σ))

namespace Parser

/-- A renaming carries a parser to another one: they differ in their grammars
only, and these correspond. -/
structure Carried (σ : Renaming) (p q : Parser) : Prop where
  /-- The settings are the same. -/
  settings : q.settings = p.settings
  /-- The streams are the same. -/
  stream : q.stream = p.stream
  /-- The units are the same. -/
  units : q.units = p.units
  /-- The first grammar is closed. -/
  closed : p.grammar.Closed
  /-- The second grammar is closed. -/
  closed' : q.grammar.Closed
  /-- The first table is that of the grammar. -/
  table : p.table = ActionTable.ofGrammar p.grammar
  /-- The second table is that of the grammar. -/
  table' : q.table = ActionTable.ofGrammar q.grammar
  /-- The grammars correspond. -/
  grammar : σ.Carries p.grammar.toComponents q.grammar.toComponents

/-- The unread symbols are declared: a nonterminal among them is a variable. -/
def Declared (p : Parser) (stack : List Frame) : Prop :=
  ∀ frame ∈ stack, ∀ x ∈ frame.unread, x.isNonterminal = true → x ∈ p.grammar.vars

/-- Moves keep to declared symbols. -/
theorem Declared.move {p : Parser} {s next : ParseState} {stack frames : List Frame}
    (hd : p.Declared stack) (hg : p.grammar.Closed) (hm : p.Move s stack next frames) :
    p.Declared frames :=
  hm.forall_unread (fun a body hb _ => hg.body_declared a body hb) hd

section Limits

variable {σ : Renaming} {g h : Grammar}

/-- There are at least as many variables as in a grammar that is carried
over. -/
theorem size_vars_le (hσ : σ.Carries g.toComponents h.toComponents) :
    g.vars.size ≤ h.vars.size := by
  have hnodup : (g.vars.members.map σ).Nodup := g.vars.nodup_members.map σ.injective
  have hsub : g.vars.members.map σ ⊆ h.vars.members := by
    intro b hb
    obtain ⟨a, ha, rfl⟩ := List.mem_map.mp hb
    exact (hσ.vars a).mpr ha
  have hle := (hnodup.subperm hsub).length_le
  rw [List.length_map] at hle
  exact hle

/-- There are as many variables. -/
theorem size_vars_eq (hσ : σ.Carries g.toComponents h.toComponents) :
    h.vars.size = g.vars.size :=
  Nat.le_antisymm (size_vars_le hσ.inverse) (size_vars_le hσ)

/-- What no body exceeds the longest body does not exceed. -/
theorem longestBody_le {n : Nat} (hn : 1 ≤ n) (hb : ∀ a, ∀ body ∈ g.rulesOf a, body.length ≤ n) :
    longestBody g ≤ n := by
  rw [longestBody]
  refine @foldl_keeps _ _ _ (· ≤ n) _ (fun most hmost entry hentry => ?_) 1 hn
  refine @foldl_keeps _ _ _ (· ≤ n) _ (fun most hmost body hbody => ?_) most hmost
  refine Nat.max_le.mpr ⟨hmost, hb entry.1 body ?_⟩
  exact Components.mem_rulesOf_iff_mem_entries.mpr ⟨entry.2, hentry, hbody⟩

/-- The longest body is at least as long as in a grammar that is carried
over. -/
theorem longestBody_le_longestBody (hσ : σ.Carries g.toComponents h.toComponents) :
    longestBody g ≤ longestBody h := by
  refine longestBody_le (longestBody_pos h) fun a body hb => ?_
  have hle := length_le_longestBody ((Grammar.mem_rulesOf_carries hσ).mpr hb)
  rw [σ.length_body] at hle
  exact hle

/-- The longest bodies have the same length. -/
theorem longestBody_eq (hσ : σ.Carries g.toComponents h.toComponents) :
    longestBody h = longestBody g :=
  Nat.le_antisymm (longestBody_le_longestBody hσ.inverse) (longestBody_le_longestBody hσ)

end Limits

/-- A list is searched by tests that agree on its members. -/
theorem findIdx?_congr {α : Type} {f g : α → Bool} {l : List α} (h : ∀ a ∈ l, f a = g a) :
    l.findIdx? f = l.findIdx? g := by
  induction l with
  | nil => rfl
  | cons a rest ih =>
    rw [List.findIdx?_cons, List.findIdx?_cons, h a List.mem_cons_self,
      ih fun b hb => h b (List.mem_cons_of_mem _ hb)]

namespace Carried

variable {σ : Renaming} {p q : Parser} {a : Symbol} {s t : ParseState}

/-- The rules of a variable are the renamed ones. -/
theorem rulesOf (hc : Carried σ p q) (a : Symbol) :
    q.grammar.rulesOf (σ a) = (p.grammar.rulesOf a).map σ.body := hc.grammar.rules a

/-- Symbols have the same units. -/
theorem unitOf (hc : Carried σ p q) (a : Symbol) : q.unitOf a = p.unitOf a := by
  rw [Parser.unitOf, Parser.unitOf, hc.units]

/-- Sets meet the same units. -/
theorem meets (hc : Carried σ p q) (s : SymbolSet) (unit : LexicalUnit) :
    q.meets s unit = p.meets s unit := by
  simp only [Parser.meets, hc.unitOf]

/-- States that are alike show the same token. -/
theorem current (hc : Carried σ p q) (h : s.Alike σ t) : q.current t = p.current s := by
  rw [Parser.current, Parser.current, hc.stream, h.cursor]

/-- The tables hold the sets of the grammars. -/
theorem first_follow {p : Parser} (h : p.table = ActionTable.ofGrammar p.grammar) :
    p.first = p.grammar.firstTable ∧ p.follow = p.grammar.followTable := by
  rw [first, follow, h]
  exact ⟨rfl, rfl⟩

/-- Corresponding alternatives can start with the same terminals. -/
theorem leadingSet (hc : Carried σ p q) {body : Body} (hb : body ∈ p.grammar.rulesOf a) :
    q.leadingSet (σ.body body) = p.leadingSet body := by
  cases body with
  | nil => rfl
  | cons x rest =>
    have hb' := (Grammar.mem_rulesOf_carries hc.grammar).mpr hb
    rw [leadingSet_eq_lookup hc.closed hc.table hb rfl,
      leadingSet_eq_lookup hc.closed' hc.table' hb' rfl]
    exact hc.closed.lookup_carries hc.closed' hc.grammar
      (hc.closed.body_declared a _ hb x List.mem_cons_self)

/-- The FOLLOW sets of corresponding variables are the same. -/
theorem follow (hc : Carried σ p q) : q.follow.members (σ a) = p.follow.members a := by
  rw [(first_follow hc.table).2, (first_follow hc.table').2]
  exact hc.closed.members_carries hc.closed' hc.grammar

/-- Corresponding variables accept the same units. -/
theorem acceptable (hc : Carried σ p q) (ha : a ∈ p.grammar.vars) :
    q.acceptable (σ a) = p.acceptable a := by
  have hset : ∀ {p : Parser} {a : Symbol}, p.grammar.Closed →
      p.table = ActionTable.ofGrammar p.grammar → a ∈ p.grammar.vars →
      (p.first.get? a).getD ∅ = p.grammar.firstTable.lookup a := by
    intro p a hg ht ha
    obtain ⟨u, hu⟩ := hg.firstSets.exists_get? (Grammar.mem_analysedSymbols_of_mem_vars ha)
    rw [(first_follow ht).1, FirstTable.lookup, hu, Option.getD_some]
  have hunits : q.unitOf = p.unitOf := funext hc.unitOf
  rw [Parser.acceptable, Parser.acceptable, hset hc.closed hc.table ha,
    hset hc.closed' hc.table' ((hc.grammar.vars a).mpr ha),
    hc.closed.lookup_carries hc.closed' hc.grammar fun _ => ha, hunits]

/-- The alternative at the same place is selected. -/
theorem select (hc : Carried σ p q) (a : Symbol) (unit : LexicalUnit) :
    q.select (σ a) unit = p.select a unit := by
  have hvanishes : q.grammar.hasEpsilonRule (σ a) = p.grammar.hasEpsilonRule a := by
    rw [Bool.eq_iff_iff, Grammar.hasEpsilonRule_iff, Grammar.hasEpsilonRule_iff,
      ← Grammar.mem_rulesOf_carries hc.grammar, σ.body_epsilonBody]
  have hplace : (q.grammar.rulesOf (σ a)).idxOf epsilonBody =
      (p.grammar.rulesOf a).idxOf epsilonBody := by
    have htest : (· == epsilonBody) ∘ σ.body = (· == epsilonBody) := by
      refine funext fun body => ?_
      rw [Function.comp_apply, Bool.eq_iff_iff, beq_iff_eq, beq_iff_eq, σ.body_eq_epsilonBody]
    rw [hc.rulesOf]
    exact (List.findIdx_map _ _ _).trans (congrArg (List.findIdx · _) htest)
  have hleading : ((q.grammar.rulesOf (σ a)).findIdx? fun body =>
      q.meets (q.leadingSet body) unit) =
      (p.grammar.rulesOf a).findIdx? fun body => p.meets (p.leadingSet body) unit := by
    rw [hc.rulesOf, List.findIdx?_map]
    refine findIdx?_congr fun body hb => ?_
    rw [Function.comp_apply, hc.leadingSet hb, hc.meets]
  rw [Parser.select, Parser.select, hvanishes, hplace, hleading, hc.follow, hc.meets, hc.stream]

/-- Where no alternative is chosen, none is chosen for the corresponding
variable. -/
theorem chosenRule_eq_none (hc : Carried σ p q) (h : s.Alike σ t)
    (hn : p.chosenRule a s = none) : q.chosenRule (σ a) t = none := by
  rw [chosenRule, Option.map_eq_none_iff] at hn ⊢
  rw [hc.current h, hc.select, hn]

/-- The renamed alternative is chosen for the corresponding variable. -/
theorem exists_chosenRule (hc : Carried σ p q) (h : s.Alike σ t) {k : Nat} {body : Body}
    (hr : p.chosenRule a s = some (k, body)) :
    ∃ number, q.chosenRule (σ a) t = some (number, σ.body body) := by
  obtain ⟨i, hi, hbody, -⟩ := chosenRule_eq_some hr
  refine ⟨(q.grammar.firstNumber? (σ a)).getD 0 + i, ?_⟩
  rw [chosenRule, hc.current h, hc.select, hi, Option.map_some, hc.rulesOf, List.getElem?_map,
    hbody, Option.map_some, Option.getD_some]

/-- Expansions of corresponding variables are alike. -/
theorem expand (hc : Carried σ p q) (ha : a ∈ p.grammar.vars) (h : s.Alike σ t) :
    Expanded σ (p.expand a s) (q.expand (σ a) t) := by
  rw [Parser.expand, Parser.expand]
  cases hr : p.chosenRule a s with
  | none =>
    rw [hc.chosenRule_eq_none h hr, hc.acceptable ha, hc.current h]
    exact .refused _
  | some rule =>
    obtain ⟨k, body⟩ := rule
    obtain ⟨number, hr'⟩ := hc.exists_chosenRule h hr
    rw [hr']
    dsimp only
    by_cases hb : body = epsilonBody
    · rw [if_pos hb, if_pos (σ.body_eq_epsilonBody.mpr hb)]
      exact .vanished ⟨h.cursor, h.tree⟩
    · rw [if_neg hb, if_neg fun e => hb (σ.body_eq_epsilonBody.mp e)]
      have hframe : (⟨t.tree.nodes.size, σ.body body⟩ : Frame) =
          Frame.rename σ ⟨s.tree.nodes.size, body⟩ := congrArg (Frame.mk · _) h.size_eq
      rw [ParseTree.addNode, ParseTree.addNode, hframe]
      refine .opened _ ⟨h.cursor, ?_⟩
      exact h.tree ▸ (s.tree.rename_addNode σ a none).symm

/-- A symbol that is not renamed takes the current token in both states, or
is refused in both. -/
theorem consume (hc : Carried σ p q) {x : Symbol} (hx : x.isNonterminal = false)
    (h : s.Alike σ t) :
    (∃ e, p.consume x s = .error e ∧ q.consume x t = .error (e.rename σ)) ∨
      ∃ next next' leaf, p.consume x s = .ok (next, leaf) ∧ q.consume x t = .ok (next', leaf) ∧
        next.Alike σ next' := by
  rw [Parser.consume, Parser.consume, hc.current h, hc.unitOf]
  by_cases hu : (p.current s).unit = p.unitOf x
  · have hadd := s.tree.rename_addNode σ x (some (p.current s))
    rw [σ.apply_eq_self hx, ← h.tree] at hadd
    rw [if_pos hu, if_pos hu, ParseTree.addNode, ParseTree.addNode, h.size_eq]
    exact .inr ⟨_, _, _, rfl, rfl, congrArg (· + 1) h.cursor, hadd.symm⟩
  · rw [if_neg hu, if_neg hu]
    exact .inl ⟨_, rfl, rfl⟩

/-- Steps from configurations that are alike are alike. -/
theorem step (hc : Carried σ p q) {stack : List Frame} (hd : p.Declared stack)
    (h : s.Alike σ t) :
    Progress.Alike σ (p.step s stack) (q.step t (stack.map (Frame.rename σ))) := by
  match stack with
  | [] => exact .finished h
  | ⟨node, []⟩ :: below => exact .running below h
  | ⟨node, x :: unread⟩ :: below =>
    rw [List.map_cons, Frame.rename, body_cons, Parser.step, Parser.step]
    by_cases hx : x ∈ p.grammar.vars
    · rw [if_pos hx, if_pos ((hc.grammar.vars x).mpr hx)]
      have hexpand := hc.expand hx h
      generalize p.expand x s = out at hexpand ⊢
      generalize q.expand (σ x) t = other at hexpand ⊢
      cases hexpand with
      | refused e => exact .failed e h
      | vanished alike => exact .running (⟨node, unread⟩ :: below) alike
      | opened frame alike =>
        exact .running (frame :: ⟨node, unread⟩ :: below) (alike.linked node frame.node)
    · have hk : x.isNonterminal = false := Bool.eq_false_iff.mpr fun hk =>
        hx (hd _ List.mem_cons_self x List.mem_cons_self hk)
      have hself := σ.apply_eq_self hk
      have hx' : x ∉ q.grammar.vars := fun hm => hx ((hc.grammar.vars x).mp (hself.symm ▸ hm))
      rw [if_neg hx, hself, if_neg hx']
      rcases hc.consume hk h with ⟨e, hp, hq⟩ | ⟨next, next', leaf, hp, hq, alike⟩
      · rw [hp, hq]
        exact .failed e h
      · rw [hp, hq]
        exact .running (⟨node, unread⟩ :: below) (alike.linked node leaf)

/-- Runs from configurations that are alike halt together, and alike. -/
theorem run (hc : Carried σ p q) (limit : Nat) {stack : List Frame} (hd : p.Declared stack)
    (h : s.Alike σ t) :
    Option.Rel (Outcome.Alike σ) (p.run limit s stack)
      (q.run limit t (stack.map (Frame.rename σ))) := by
  induction limit generalizing s t stack with
  | zero => exact .none
  | succ limit ih =>
    rw [Parser.run, Parser.run]
    have hstep := hc.step hd h
    have hkept : ∀ next frames, p.step s stack = .running next frames → p.Declared frames :=
      fun next frames hs => hd.move hc.closed (move_of_step hs)
    generalize p.step s stack = out at hstep hkept ⊢
    generalize q.step t (stack.map (Frame.rename σ)) = other at hstep ⊢
    cases hstep with
    | running frames alike => exact ih (hkept _ frames rfl) alike
    | finished alike => exact .some ⟨alike, rfl⟩
    | failed e alike => exact .some ⟨alike, rfl⟩

/-- Descents from corresponding variables halt together, and alike. -/
theorem build (hc : Carried σ p q) (limit : Nat) (ha : a ∈ p.grammar.vars) (h : s.Alike σ t) :
    Option.Rel (Outcome.Alike σ) (p.build limit a s) (q.build limit (σ a) t) := by
  rw [Parser.build, Parser.build]
  have hexpand := hc.expand ha h
  have hkept : ∀ next frame, p.expand a s = .ok (next, some frame) → p.Declared [frame] := by
    intro next frame he
    rcases expand_eq_ok he with ⟨k, -, -, hf⟩ | ⟨k, body, hr, -, -, hf⟩
    · cases hf
    · rw [Option.some.inj hf]
      intro other hother
      rw [List.mem_singleton.mp hother]
      exact hc.closed.body_declared a body (mem_rulesOf_of_chosenRule hr)
  generalize p.expand a s = out at hexpand hkept ⊢
  generalize q.expand (σ a) t = other at hexpand ⊢
  cases hexpand with
  | refused e => exact .some ⟨h, rfl⟩
  | vanished alike => exact .some ⟨alike, rfl⟩
  | @opened next next' frame alike =>
    have hrun := hc.run limit (hkept next frame rfl) alike
    rw [List.map_singleton] at hrun
    dsimp only
    generalize p.run limit next [frame] = last at hrun ⊢
    generalize q.run limit next' [frame.rename σ] = last' at hrun ⊢
    cases hrun with
    | none => exact .none
    | @some o u hlast =>
      refine .some ⟨hlast.state, ?_⟩
      dsimp only
      rw [hlast.result]
      cases o.result <;> rfl

/-- Finished descents that are alike are concluded alike. -/
theorem conclude (hc : Carried σ p q) {o u : Outcome (Option Nat)} (h : o.Alike σ u) :
    (p.conclude o).Alike σ (q.conclude u) := by
  rw [Parser.conclude, Parser.conclude, h.result]
  cases o.result with
  | error e => exact ⟨h.state, rfl⟩
  | ok root =>
    have hrooted : ParseState.Alike σ { o.state with tree := o.state.tree.setRoot root }
        { u.state with tree := u.state.tree.setRoot root } :=
      ⟨h.state.cursor, congrArg (ParseTree.setRoot · root) h.state.tree⟩
    dsimp only [Except.mapError]
    rw [hc.settings, hc.stream, hc.current hrooted]
    split
    · exact ⟨hrooted, rfl⟩
    · exact ⟨hrooted, rfl⟩

/-- Parses of the same limited length halt together, and alike. -/
theorem parseWithin (hc : Carried σ p q) (limit : Nat) :
    Option.Rel (Outcome.Alike σ) (p.parseWithin limit) (q.parseWithin limit) := by
  have hstart : q.grammar.start = σ p.grammar.start := hc.grammar.start
  have hbuild := hc.build limit p.grammar.valid.start_mem (s := {}) (t := {})
    ⟨rfl, (ParseTree.rename_empty σ).symm⟩
  rw [Parser.parseWithin, Parser.parseWithin, hstart]
  generalize p.build limit p.grammar.start {} = last at hbuild ⊢
  generalize q.build limit (σ p.grammar.start) {} = last' at hbuild ⊢
  cases hbuild with
  | none => exact .none
  | some h => exact .some (hc.conclude h)

/-- Parses halt together, and alike. -/
theorem parse (hc : Carried σ p q) : Option.Rel (Outcome.Alike σ) p.parse q.parse := by
  have hlimit : q.stepLimit = p.stepLimit := by
    rw [stepLimit, stepLimit, size_vars_eq hc.grammar, longestBody_eq hc.grammar, hc.stream]
  rw [Parser.parse, Parser.parse, hlimit]
  exact hc.parseWithin p.stepLimit

end Carried

end Parser

end PredictiveParsing
