import Mathlib.Data.Set.Function
import PredictiveParsing.Proofs.Descent.Recognition
import PredictiveParsing.Proofs.Renaming.Descent

/-!
# Parses that differ in units only

The units of terminals and the types of tokens matter only as far as they are
equal or not. Where the types of all tokens and the units of all terminals of
the reduced grammar are replaced by a function that keeps different ones of them
different, the descent does the same step by step: whatever two units it
compares, they come from these terminals and tokens, so that the comparison
comes out the same. What is replaced shows in the tokens of the tree and in the
error only.
-/

namespace PredictiveParsing

/-- A token with its type replaced. -/
def Token.retype (f : LexicalUnit → LexicalUnit) (t : Token) : Token := { t with unit := f t.unit }

namespace ParseTree

/-- A tree with the types of its tokens replaced. -/
def retype (f : LexicalUnit → LexicalUnit) (t : ParseTree) : ParseTree :=
  { t with nodes := t.nodes.map fun n => { n with token := n.token.map (Token.retype f) } }

variable (f : LexicalUnit → LexicalUnit) (t : ParseTree)

/-- The types can be replaced before or after a node is added, which comes to
the same place. -/
theorem addNode_retype (label : Symbol) (token : Option Token) :
    (t.retype f).addNode label (token.map (Token.retype f)) =
      (((t.addNode label token).1).retype f, (t.addNode label token).2) :=
  Prod.ext (Eq.symm (eq_of_nodes Array.map_push rfl)) Array.size_map

/-- They can be replaced before or after a change that does not touch
tokens. -/
theorem retype_update (i : Nat) {change : ParseNode → ParseNode}
    (h : ∀ n : ParseNode, change { n with token := n.token.map (Token.retype f) } =
      { change n with token := (change n).token.map (Token.retype f) }) :
    (t.update i change).retype f = (t.retype f).update i change :=
  eq_of_nodes (map_modify h t.nodes i) rfl

/-- They can be replaced before or after a link is made. -/
theorem retype_link (parent child : Nat) :
    (t.link parent child).retype f = (t.retype f).link parent child := by
  rw [link, retype_update, retype_update, link]
  · exact fun n => rfl
  · exact fun n => rfl

end ParseTree

/-- A state with the types of the tokens in its tree replaced. -/
def ParseState.retype (f : LexicalUnit → LexicalUnit) (s : ParseState) : ParseState :=
  { s with tree := s.tree.retype f }

/-- Errors of one kind at a token with its type replaced. The unit that was due
in its place is replaced as well. -/
inductive SyntaxError.Retyped (f : LexicalUnit → LexicalUnit) : SyntaxError → SyntaxError → Prop
  /-- A terminal is due in both. -/
  | mismatch (expected : LexicalUnit) (token : Token) :
      Retyped f (.mismatch expected token) (.mismatch (f expected) (token.retype f))
  /-- The same variable has no alternative in both. -/
  | noProduction (head : Symbol) (acceptable others : List LexicalUnit) (token : Token) :
      Retyped f (.noProduction head acceptable token) (.noProduction head others (token.retype f))

/-- Results that are the same, or errors that correspond. -/
inductive RetypedResult {α : Type} (f : LexicalUnit → LexicalUnit) :
    Except SyntaxError α → Except SyntaxError α → Prop
  /-- Both succeed. -/
  | ok (a : α) : RetypedResult f (.ok a) (.ok a)
  /-- Both fail. -/
  | error {e e' : SyntaxError} (retyped : e.Retyped f e') : RetypedResult f (.error e) (.error e')

/-- Outcomes with the same rules, cursor and tree up to the types of tokens, and
with results that correspond. -/
structure Outcome.Retyped {α : Type} (f : LexicalUnit → LexicalUnit) (o u : Outcome α) : Prop where
  /-- The states differ in the types of tokens only. -/
  state : u.state = o.state.retype f
  /-- The results correspond. -/
  result : RetypedResult f o.result u.result

/-- Expansions that are refused alike, or lead to the same up to the types of
tokens. -/
inductive RetypedExpansion (f : LexicalUnit → LexicalUnit) :
    Except SyntaxError (ParseState × Option Frame) →
    Except SyntaxError (ParseState × Option Frame) → Prop
  /-- Both are refused. -/
  | refused {e e' : SyntaxError} (retyped : e.Retyped f e') :
      RetypedExpansion f (.error e) (.error e')
  /-- Both are made. -/
  | made (s : ParseState) (frame : Option Frame) :
      RetypedExpansion f (.ok (s, frame)) (.ok (s.retype f, frame))

/-- Steps that lead to the same up to the types of tokens, or end alike. -/
inductive Progress.Retyped (f : LexicalUnit → LexicalUnit) : Progress → Progress → Prop
  /-- Both go on. -/
  | running (s : ParseState) (stack : List Frame) :
      Retyped f (.running s stack) (.running (s.retype f) stack)
  /-- Both are finished. -/
  | finished (s : ParseState) : Retyped f (.finished s) (.finished (s.retype f))
  /-- Both fail. -/
  | failed (s : ParseState) {e e' : SyntaxError} (retyped : e.Retyped f e') :
      Retyped f (.failed s e) (.failed (s.retype f) e')

namespace Parser

/-- The units that a parser compares: those of the terminals in the bodies of its
grammar, and the types of its tokens. -/
def comparedUnits (p : Parser) : Set LexicalUnit :=
  { unit | (∃ t, t.isTerminal = true ∧ p.grammar.Occurs t ∧ p.unitOf t = unit) ∨
    ∃ token ∈ p.stream.tokens, token.unit = unit }

/-- The units of terminals and tokens replaced in a parser, where different ones
stay different. -/
structure Retypes (f : LexicalUnit → LexicalUnit) (p q : Parser) : Prop where
  /-- The settings are the same. -/
  settings : q.settings = p.settings
  /-- The grammars are the same. -/
  grammar : q.grammar = p.grammar
  /-- The tables are the same. -/
  table : q.table = p.table
  /-- The grammar is closed. -/
  closed : p.grammar.Closed
  /-- The table is that of the grammar. -/
  table_eq : p.table = ActionTable.ofGrammar p.grammar
  /-- The streams are equally long. -/
  size : q.stream.size = p.stream.size
  /-- The types of the tokens are replaced. -/
  token : ∀ i, q.stream.token i = (p.stream.token i).retype f
  /-- So are the units of the terminals in bodies. -/
  unitOf : ∀ t, t.isTerminal = true → p.grammar.Occurs t → q.unitOf t = f (p.unitOf t)
  /-- Different units stay different. -/
  injOn : Set.InjOn f p.comparedUnits

/-- The unread symbols can be read: they are variables or terminals of bodies. -/
def Readable (p : Parser) (stack : List Frame) : Prop :=
  ∀ frame ∈ stack, ∀ x ∈ frame.unread,
    x ∈ p.grammar.vars ∨ (x.isTerminal = true ∧ p.grammar.Occurs x)

variable {p q : Parser} {s next : ParseState} {stack frames : List Frame} {a x t : Symbol}

/-- The symbols of an alternative other than the empty string can be read. -/
theorem readable_of_body (hg : p.grammar.Closed) {body : Body} (hb : body ∈ p.grammar.rulesOf a)
    (hne : body ≠ epsilonBody) :
    ∀ x ∈ body, x ∈ p.grammar.vars ∨ (x.isTerminal = true ∧ p.grammar.Occurs x) := by
  intro x hx
  by_cases hv : x ∈ p.grammar.vars
  · exact .inl hv
  · have hoccurs : p.grammar.Occurs x := ⟨a, body, hb, hx⟩
    have hx' : x ≠ .epsilon := fun e => Grammar.epsilon_notMem hb hne (e ▸ hx)
    exact .inr ⟨hg.isTerminal_of_occurs hoccurs hv hx', hoccurs⟩

/-- Moves keep to symbols that can be read. -/
theorem Readable.move (hr : p.Readable stack) (hg : p.grammar.Closed)
    (hm : p.Move s stack next frames) : p.Readable frames :=
  hm.forall_unread (fun _ _ => readable_of_body hg) hr

namespace Retypes

variable {f : LexicalUnit → LexicalUnit} {unit : LexicalUnit}

/-- The type of a token is compared. -/
theorem token_mem (p : Parser) (i : Nat) : (p.stream.token i).unit ∈ p.comparedUnits :=
  .inr ⟨p.stream.token i, Array.getElem_mem _, rfl⟩

/-- Of the units that are compared, two are equal exactly if they are equal when
replaced. -/
theorem eq_iff (h : Retypes f p q) {other : LexicalUnit} (hu : unit ∈ p.comparedUnits)
    (ho : other ∈ p.comparedUnits) : f unit = f other ↔ unit = other :=
  h.injOn.eq_iff hu ho

/-- The token at the same place is current. -/
theorem current (h : Retypes f p q) (s : ParseState) :
    q.current (s.retype f) = (p.current s).retype f := h.token s.cursor

/-- The type of the end marker is replaced. -/
theorem endUnit (h : Retypes f p q) : q.stream.endUnit = f p.stream.endUnit := by
  rw [TokenStream.endUnit, TokenStream.endUnit, TokenStream.last, TokenStream.last, h.size, h.token]
  rfl

/-- A set of terminals of bodies, the empty string aside, meets the unit that
replaces one exactly if it met that one. -/
theorem meets (h : Retypes f p q) {set : SymbolSet}
    (hset : ∀ t ∈ set, t ≠ .epsilon → t.isTerminal = true ∧ p.grammar.Occurs t)
    (hu : unit ∈ p.comparedUnits) : q.meets set (f unit) = p.meets set unit := by
  rw [Bool.eq_iff_iff, meets_iff, meets_iff]
  refine exists_congr fun t => and_congr_right fun ht => and_congr_right fun hne => ?_
  obtain ⟨hterminal, hoccurs⟩ := hset t ht hne
  rw [h.unitOf t hterminal hoccurs, h.eq_iff (.inl ⟨t, hterminal, hoccurs, rfl⟩) hu]

/-- An alternative can start with terminals of bodies. -/
theorem terminal_of_leadingSet (h : Retypes f p q) {body : Body}
    (hb : body ∈ p.grammar.rulesOf a) (ht : t ∈ p.leadingSet body) (hne : t ≠ .epsilon) :
    t.isTerminal = true ∧ p.grammar.Occurs t := by
  cases hx : body.head? with
  | none =>
    rw [leadingSet, hx] at ht
    exact absurd ht (SymbolSet.not_mem_empty t)
  | some x =>
    rw [leadingSet_eq_lookup h.closed h.table_eq hb hx] at ht
    exact h.closed.terminal_of_lookup hb hx ht hne

/-- A variable is followed by terminals of bodies. -/
theorem terminal_of_follow (h : Retypes f p q) (ht : t ∈ p.follow.members a) :
    t.isTerminal = true ∧ p.grammar.Occurs t := by
  rw [follow_eq_followTable h.table_eq] at ht
  obtain ⟨hv, hne, hoccurs⟩ := h.closed.followSets.mem_members ht
  exact ⟨h.closed.isTerminal_of_occurs hoccurs hv hne, hoccurs⟩

/-- The same alternative is selected. -/
theorem select (h : Retypes f p q) (a : Symbol) (hu : unit ∈ p.comparedUnits) :
    q.select a (f unit) = p.select a unit := by
  have hfirst : q.first = p.first := by rw [first, first, h.table]
  have hfollow : q.follow = p.follow := by rw [follow, follow, h.table]
  have hleading : ∀ body, q.leadingSet body = p.leadingSet body := fun body => by
    rw [leadingSet, leadingSet, hfirst]
  have hfollows : q.meets (p.follow.members a) (f unit) = p.meets (p.follow.members a) unit :=
    h.meets (fun t ht _ => h.terminal_of_follow ht) hu
  have hplace : ((p.grammar.rulesOf a).findIdx? fun body =>
      q.meets (q.leadingSet body) (f unit)) =
      (p.grammar.rulesOf a).findIdx? fun body => p.meets (p.leadingSet body) unit := by
    refine findIdx?_congr fun body hb => ?_
    rw [hleading, h.meets (fun t ht hne => h.terminal_of_leadingSet hb ht hne) hu]
  have hends : (f unit == q.stream.endUnit) = (unit == p.stream.endUnit) := by
    rw [h.endUnit, Bool.eq_iff_iff, beq_iff_eq, beq_iff_eq]
    exact h.eq_iff hu (token_mem p _)
  rw [Parser.select, Parser.select, h.grammar, hfollow, hfollows, hplace, hends]

/-- The same rule is chosen. -/
theorem chosenRule (h : Retypes f p q) (a : Symbol) (s : ParseState) :
    q.chosenRule a (s.retype f) = p.chosenRule a s := by
  have hselect : q.select a (q.current (s.retype f)).unit = p.select a (p.current s).unit := by
    rw [h.current]
    exact h.select a (token_mem p s.cursor)
  rw [Parser.chosenRule, Parser.chosenRule, hselect, h.grammar]

/-- Expansions of a variable correspond. -/
theorem expand (h : Retypes f p q) (a : Symbol) (s : ParseState) :
    RetypedExpansion f (p.expand a s) (q.expand a (s.retype f)) := by
  rw [Parser.expand, Parser.expand, h.chosenRule]
  cases p.chosenRule a s with
  | none =>
    rw [h.current]
    exact .refused (.noProduction _ _ _ _)
  | some rule =>
    obtain ⟨number, body⟩ := rule
    dsimp only
    by_cases hb : body = epsilonBody
    · rw [if_pos hb, if_pos hb]
      exact .made { s with trace := s.trace ++ [number] } none
    · rw [if_neg hb, if_neg hb]
      have hadd : (s.retype f).tree.addNode a none = _ := s.tree.addNode_retype f a none
      rw [hadd]
      exact .made { s with
        trace := s.trace ++ [number]
        tree := (s.tree.addNode a none).1 } (some ⟨s.tree.nodes.size, body⟩)

/-- A terminal of a body takes the current token in both runs, or is refused in
both. -/
theorem consume (h : Retypes f p q) (hx : x.isTerminal = true) (ho : p.grammar.Occurs x)
    (s : ParseState) :
    (∃ e e', p.consume x s = .error e ∧ q.consume x (s.retype f) = .error e' ∧ e.Retyped f e') ∨
      ∃ next leaf, p.consume x s = .ok (next, leaf) ∧
        q.consume x (s.retype f) = .ok (next.retype f, leaf) := by
  have htest : (q.current (s.retype f)).unit = q.unitOf x ↔ (p.current s).unit = p.unitOf x := by
    rw [h.current, h.unitOf x hx ho]
    exact h.eq_iff (token_mem p s.cursor) (.inl ⟨x, hx, ho, rfl⟩)
  rw [Parser.consume, Parser.consume]
  by_cases hu : (p.current s).unit = p.unitOf x
  · have hadd : (s.retype f).tree.addNode x (some ((p.current s).retype f)) = _ :=
      s.tree.addNode_retype f x (some (p.current s))
    rw [if_pos hu, if_pos (htest.mpr hu), h.current, hadd]
    exact .inr ⟨_, _, rfl, rfl⟩
  · rw [if_neg hu, if_neg fun e => hu (htest.mp e), h.current, h.unitOf x hx ho]
    exact .inl ⟨_, _, rfl, rfl, .mismatch _ _⟩

/-- A link is made in both states. -/
theorem linked_retype (s : ParseState) (parent child : Nat) :
    linked (s.retype f) parent child = (linked s parent child).retype f := by
  rw [linked, linked, ParseState.retype, ParseState.retype, ParseTree.retype_link]

/-- Steps correspond. -/
theorem step (h : Retypes f p q) (hr : p.Readable stack) (s : ParseState) :
    (p.step s stack).Retyped f (q.step (s.retype f) stack) := by
  match stack with
  | [] => exact .finished s
  | ⟨node, []⟩ :: below => exact .running s below
  | ⟨node, x :: unread⟩ :: below =>
    rw [Parser.step, Parser.step, h.grammar]
    by_cases hx : x ∈ p.grammar.vars
    · rw [if_pos hx, if_pos hx]
      have hexpand := h.expand x s
      generalize p.expand x s = out at hexpand ⊢
      generalize q.expand x (s.retype f) = other at hexpand ⊢
      cases hexpand with
      | refused retyped => exact .failed s retyped
      | made next frame =>
        cases frame with
        | none => exact .running next (⟨node, unread⟩ :: below)
        | some frame =>
          dsimp only
          rw [linked_retype]
          exact .running _ (frame :: ⟨node, unread⟩ :: below)
    · obtain ⟨hterminal, hoccurs⟩ :=
        (hr _ List.mem_cons_self x List.mem_cons_self).resolve_left hx
      rw [if_neg hx, if_neg hx]
      rcases h.consume hterminal hoccurs s with ⟨e, e', hp, hq, retyped⟩ | ⟨next, leaf, hp, hq⟩
      · rw [hp, hq]
        exact .failed s retyped
      · rw [hp, hq]
        dsimp only
        rw [linked_retype]
        exact .running _ (⟨node, unread⟩ :: below)

/-- Runs halt together, and correspond. -/
theorem run (h : Retypes f p q) (limit : Nat) (hr : p.Readable stack) (s : ParseState) :
    Option.Rel (Outcome.Retyped f) (p.run limit s stack) (q.run limit (s.retype f) stack) := by
  induction limit generalizing s stack with
  | zero => exact .none
  | succ limit ih =>
    rw [Parser.run, Parser.run]
    have hstep := h.step hr s
    have hkept : ∀ next frames, p.step s stack = .running next frames → p.Readable frames :=
      fun next frames hs => hr.move h.closed (move_of_step hs)
    generalize p.step s stack = out at hstep hkept ⊢
    generalize q.step (s.retype f) stack = other at hstep ⊢
    cases hstep with
    | running next frames => exact ih (hkept next frames rfl) next
    | finished last => exact .some ⟨rfl, .ok ()⟩
    | failed last retyped => exact .some ⟨rfl, .error retyped⟩

/-- Descents from a variable halt together, and correspond. -/
theorem build (h : Retypes f p q) (limit : Nat) (a : Symbol) (s : ParseState) :
    Option.Rel (Outcome.Retyped f) (p.build limit a s) (q.build limit a (s.retype f)) := by
  rw [Parser.build, Parser.build]
  have hexpand := h.expand a s
  have hkept : ∀ next frame, p.expand a s = .ok (next, some frame) → p.Readable [frame] := by
    intro next frame he
    rcases expand_eq_ok he with ⟨k, -, -, hf⟩ | ⟨k, body, hr, hb, -, hf⟩
    · cases hf
    · rw [Option.some.inj hf]
      exact List.forall_mem_singleton.mpr
        (readable_of_body h.closed (mem_rulesOf_of_chosenRule hr) hb)
  generalize p.expand a s = out at hexpand hkept ⊢
  generalize q.expand a (s.retype f) = other at hexpand ⊢
  cases hexpand with
  | refused retyped => exact .some ⟨rfl, .error retyped⟩
  | made next frame =>
    cases frame with
    | none => exact .some ⟨rfl, .ok none⟩
    | some frame =>
      have hrun := h.run limit (hkept next frame rfl) next
      dsimp only
      generalize p.run limit next [frame] = last at hrun ⊢
      generalize q.run limit (next.retype f) [frame] = last' at hrun ⊢
      cases hrun with
      | none => exact .none
      | @some o u hlast =>
        refine .some ⟨hlast.state, ?_⟩
        obtain ⟨-, hresult⟩ := hlast
        dsimp only
        generalize o.result = result at hresult ⊢
        generalize u.result = result' at hresult ⊢
        cases hresult with
        | ok => exact .ok _
        | error retyped => exact .error retyped

/-- Finished descents that correspond are concluded alike. -/
theorem conclude (h : Retypes f p q) {o u : Outcome (Option Nat)} (ho : o.Retyped f u) :
    (p.conclude o).Retyped f (q.conclude u) := by
  obtain ⟨hstate, hresult⟩ := ho
  rw [Parser.conclude, Parser.conclude, hstate]
  generalize o.result = result at hresult ⊢
  generalize u.result = result' at hresult ⊢
  cases hresult with
  | error retyped => exact ⟨rfl, .error retyped⟩
  | ok root =>
    dsimp only
    have hrooted : ({ o.state.retype f with tree := (o.state.retype f).tree.setRoot root } :
        ParseState) = ({ o.state with tree := o.state.tree.setRoot root } : ParseState).retype f :=
      rfl
    have htest : (q.current (({ o.state with tree := o.state.tree.setRoot root } :
        ParseState).retype f)).unit ≠ q.stream.endUnit ↔
        (p.current { o.state with tree := o.state.tree.setRoot root }).unit ≠ p.stream.endUnit := by
      rw [h.current, h.endUnit]
      exact not_congr (h.eq_iff (token_mem p _) (token_mem p _))
    rw [hrooted, h.settings]
    simp only [htest]
    split
    · rw [h.current, h.endUnit]
      exact ⟨rfl, .error (.mismatch _ _)⟩
    · exact ⟨rfl, .ok ()⟩

/-- Parses of the same limited length halt together, and correspond. -/
theorem parseWithin (h : Retypes f p q) (limit : Nat) :
    Option.Rel (Outcome.Retyped f) (p.parseWithin limit) (q.parseWithin limit) := by
  have hbuild := h.build limit p.grammar.start {}
  have hempty : ({} : ParseState).retype f = {} :=
    congrArg (ParseState.mk [] 0) (ParseTree.eq_of_nodes Array.map_empty rfl)
  rw [hempty] at hbuild
  rw [Parser.parseWithin, Parser.parseWithin, h.grammar]
  generalize p.build limit p.grammar.start {} = last at hbuild ⊢
  generalize q.build limit p.grammar.start {} = last' at hbuild ⊢
  cases hbuild with
  | none => exact .none
  | some ho => exact .some (h.conclude ho)

/-- Parses halt together, and correspond. -/
theorem parse (h : Retypes f p q) : Option.Rel (Outcome.Retyped f) p.parse q.parse := by
  have hlimit : q.stepLimit = p.stepLimit := by
    rw [stepLimit, stepLimit, h.grammar, h.size]
  rw [Parser.parse, Parser.parse, hlimit]
  exact h.parseWithin p.stepLimit

end Retypes

variable {settings : Settings} {g : Grammar} {units : Option UnitMap} {tokens : List Token}
  {f : LexicalUnit → LexicalUnit} {retyped : UnitMap}

/-- A parser made of the same grammar for tokens with their types replaced, and
for a map that gives the terminals of bodies what replaces their units, is one
where the units are replaced. -/
theorem Made.retypes (hg : g.Closed) (hp : Made settings g units tokens p)
    (hq : Made settings g (some retyped) (tokens.map (Token.retype f)) q)
    (hf : Set.InjOn f p.comparedUnits)
    (hretyped : ∀ t, t.isTerminal = true → p.grammar.Occurs t →
      retyped.unit? t.name = some (f (p.unitOf t))) : Retypes f p q := by
  have hgrammar : q.grammar = p.grammar := by
    have hr := hq.reduced
    rw [hp.reduced] at hr
    exact (Except.ok.inj hr).symm
  refine ⟨hq.settings_eq.trans hp.settings_eq.symm, hgrammar, ?_, (hg.reduce hp.reduced).1,
    hp.table_eq, ?_, fun i => ?_, fun t ht ho => ?_, hf⟩
  · rw [hq.table_eq, hp.table_eq, hgrammar]
  · rw [hq.size_eq, hp.size_eq, List.length_map]
  · have hi := hq.token_eq i
    rw [List.length_map, List.getElem?_map, hp.token_eq i, Option.map_some] at hi
    exact (Option.some.inj hi).symm
  · have hne : t ≠ .epsilon := fun e => by rw [e] at ht; cases ht
    rw [Parser.unitOf, if_neg hne, hq.units_eq]
    dsimp only
    rw [hretyped t ht ho, Option.getD_some]

/-- Whether a parser can be made, and if not, why, does not depend on units and
types. -/
theorem make_retyped_eq_error {fault : ParserFault}
    (h : make settings g units tokens = .error fault) (f : LexicalUnit → LexicalUnit)
    (retyped : UnitMap) :
    make settings g (some retyped) (tokens.map (Token.retype f)) = .error fault := by
  cases tokens with
  | nil => exact h
  | cons first rest =>
    have hsize : 0 < (first :: rest).toArray.size := Nat.succ_pos _
    have hsize' : 0 < ((first :: rest).map (Token.retype f)).toArray.size := Nat.succ_pos _
    rw [make, TokenStream.ofList?, dif_pos hsize] at h
    rw [make, TokenStream.ofList?, dif_pos hsize']
    cases hr : g.reduce settings with
    | error cause =>
      rw [hr] at h
      exact h
    | ok reduced =>
      rw [hr] at h
      cases h

/-- Parsing commutes with the replacement of units, of whatever kind they are,
by a function that keeps those of the terminals in the reduced grammar and the
types of the tokens apart. Where the types of the tokens are replaced by it, and
a map gives the terminals what replaces their units, there is a parser if there
is one for the given tokens and units, and the fault is the same if there is
none. The parser halts exactly if the given one does, for every limit of steps;
it applies the same rules, matches as many tokens and builds the same tree up to
the types of the tokens in it; and it succeeds or fails with it, at the token
with its type replaced and for the same variable or the unit that replaces the
one that was due. -/
theorem make_parse_retyped (hg : g.Closed) :
    (∀ fault, make settings g units tokens = .error fault →
      ∀ (f : LexicalUnit → LexicalUnit) (retyped : UnitMap),
        make settings g (some retyped) (tokens.map (Token.retype f)) = .error fault) ∧
    ∀ p, make settings g units tokens = .ok p →
      ∀ f : LexicalUnit → LexicalUnit, Set.InjOn f p.comparedUnits →
      ∀ retyped : UnitMap, (∀ t, t.isTerminal = true → p.grammar.Occurs t →
        retyped.unit? t.name = some (f (p.unitOf t))) →
      ∃ q, make settings g (some retyped) (tokens.map (Token.retype f)) = .ok q ∧
        q.grammar = p.grammar ∧
        (∀ limit, Option.Rel (Outcome.Retyped f) (p.parseWithin limit) (q.parseWithin limit)) ∧
        Option.Rel (Outcome.Retyped f) p.parse q.parse := by
  refine ⟨fun fault h => make_retyped_eq_error h, fun p hp f hf retyped hretyped => ?_⟩
  have hmade := made_of_make hp
  have hne : tokens ≠ [] := by
    intro e
    have hsize := hmade.size_eq
    rw [e] at hsize
    exact absurd p.stream.nonempty (Nat.not_lt.mpr (Nat.le_of_eq hsize))
  obtain ⟨q, hq, hgrammar⟩ := exists_make hmade.reduced (some retyped)
    (tokens.dropLast.map (Token.retype f)) ((tokens.getLast hne).retype f)
  rw [← List.map_singleton, ← List.map_append, List.dropLast_append_getLast hne] at hq
  have h := hmade.retypes hg (made_of_make hq) hf hretyped
  exact ⟨q, hq, hgrammar, h.parseWithin, h.parse⟩

/-- A replacement of units that tells the unit of no name, that of a plus sign and
all others from each other. -/
def recoded (unit : LexicalUnit) : LexicalUnit :=
  if unit = .none then .member "Unit" "ID"
  else if unit = .named "PLUS" then .plain (.int 7)
  else .none

/-- Sums whose summands have no unit are parsed in the same way where the
summands have one and the end marker has none. -/
theorem make_parse_retyped_sums : Grammar.sums.Closed ∧ ¬Function.Injective recoded ∧
    ∃ p q o u, make {} Grammar.sums (some [("+", .named "PLUS")])
        [⟨.none, .text "x", .int 1, .int 1⟩, ⟨.named "PLUS", .text "+", .int 1, .int 2⟩,
          ⟨.none, .text "y", .int 1, .int 3⟩, ⟨.named "EOF", .null, .int 1, .int 4⟩] = .ok p ∧
      Set.InjOn recoded p.comparedUnits ∧
      make {} Grammar.sums (some [("x", .member "Unit" "ID"), ("+", .plain (.int 7))])
        [⟨.member "Unit" "ID", .text "x", .int 1, .int 1⟩,
          ⟨.plain (.int 7), .text "+", .int 1, .int 2⟩,
          ⟨.member "Unit" "ID", .text "y", .int 1, .int 3⟩,
          ⟨.none, .null, .int 1, .int 4⟩] = .ok q ∧
      p.parseWithin 40 = some o ∧ q.parseWithin 40 = some u ∧ o.Retyped recoded u ∧
      o.result = .ok () ∧ u.state.trace = [1, 2, 3, 4] := by
  have hinjective : ¬Function.Injective recoded := by
    intro h
    have hne : LexicalUnit.named "EOF" ≠ LexicalUnit.named "END" := by decide
    exact hne (h (by decide))
  have hrun : ((make {} Grammar.sums (some [("+", .named "PLUS")])
      [⟨.none, .text "x", .int 1, .int 1⟩, ⟨.named "PLUS", .text "+", .int 1, .int 2⟩,
        ⟨.none, .text "y", .int 1, .int 3⟩, ⟨.named "EOF", .null, .int 1, .int 4⟩]).toOption.bind
      fun p => (p.parseWithin 40).map fun o => (o.result, o.state.trace,
        p.grammar.rules.entries.all fun entry => entry.2.all fun body => body.all fun t =>
          !t.isTerminal || decide (t = .terminal "x" ∨ t = .terminal "+"))) =
      some (.ok (), [1, 2, 3, 4], true) := by
    decide +kernel
  obtain ⟨p, hmake, hparse⟩ := exists_of_make_bind hrun
  obtain ⟨o, ho, hvalues⟩ := Option.map_eq_some_iff.mp hparse
  obtain ⟨hresult, hrest⟩ := Prod.mk.inj hvalues
  obtain ⟨htrace, hall⟩ := Prod.mk.inj hrest
  have hmade := made_of_make hmake
  have hterminal : ∀ t, t.isTerminal = true → p.grammar.Occurs t →
      t = .terminal "x" ∨ t = .terminal "+" := by
    intro t ht ⟨a, body, hbody, hmem⟩
    have htests := Components.forall_mem_rulesOf_of_all hall a body hbody
    have htest := List.all_eq_true.mp htests t hmem
    rw [ht] at htest
    exact of_decide_eq_true htest
  have hunits : p.unitOf (.terminal "x") = .none ∧ p.unitOf (.terminal "+") = .named "PLUS" := by
    rw [unitOf, unitOf, hmade.units_eq]
    decide
  have hcompared : ∀ unit ∈ p.comparedUnits,
      unit = .none ∨ unit = .named "PLUS" ∨ unit = .named "EOF" := by
    rintro unit (⟨t, ht, ho, rfl⟩ | ⟨token, hmem, rfl⟩)
    · rcases hterminal t ht ho with rfl | rfl
      · exact .inl hunits.1
      · exact .inr (.inl hunits.2)
    · rw [hmade.tokens_eq, List.mem_toArray] at hmem
      simp only [List.mem_cons, List.not_mem_nil, or_false] at hmem
      rcases hmem with rfl | rfl | rfl | rfl <;> simp
  have hf : Set.InjOn recoded p.comparedUnits := by
    intro unit hu other ho he
    rcases hcompared unit hu with rfl | rfl | rfl <;>
      rcases hcompared other ho with rfl | rfl | rfl <;> first | rfl | exact absurd he (by decide)
  have hretyped : ∀ t, t.isTerminal = true → p.grammar.Occurs t →
      UnitMap.unit? [("x", .member "Unit" "ID"), ("+", .plain (.int 7))] t.name =
        some (recoded (p.unitOf t)) := by
    intro t ht ho
    rcases hterminal t ht ho with rfl | rfl
    · rw [hunits.1]
      decide
    · rw [hunits.2]
      decide
  obtain ⟨-, commutes⟩ := make_parse_retyped Grammar.sums_closed
  obtain ⟨q, hq, -, hwithin, -⟩ := commutes p hmake recoded hf _ hretyped
  have hrel := hwithin 40
  rw [ho] at hrel
  generalize hlast : q.parseWithin 40 = last at hrel
  cases hrel with
  | @some _ u hou =>
    refine ⟨Grammar.sums_closed, hinjective, p, q, o, u, hmake, hf, hq, ho, hlast, hou, hresult, ?_⟩
    rw [hou.state]
    exact htrace

end Parser

end PredictiveParsing
