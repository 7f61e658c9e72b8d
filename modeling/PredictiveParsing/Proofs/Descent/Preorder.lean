import PredictiveParsing.Proofs.Descent.Lookups
import PredictiveParsing.Proofs.Descent.Replay
import PredictiveParsing.Proofs.Descent.Tree
import PredictiveParsing.Proofs.ParseTree.Edits

/-!
# The arena after a parse

A descent adds a node for every token that it takes and for every rule that
it applies, the empty string excepted, and links it at once to the node of
the frame on top. So the arena is a forest at every step, its nodes are
counted by the cursor and the trace, and a parse that succeeds leaves nothing
but the tree in it, numbered in the order in which a walk visits the nodes.
-/

namespace PredictiveParsing

/-- A further node that becomes a child of another one leaves a forest: there
is nothing below it yet. -/
theorem ParseTree.IsForest.grow {t : ParseTree} (h : t.IsForest) {parent : Nat}
    (hp : parent < t.size) (label : Symbol) (token : Option Token) :
    (t.grow parent label token).IsForest := by
  have hsize : (t.addNode label token).1.size = t.size + 1 := Array.size_push _
  have houtside : t.nodes[t.size]? = none := Array.getElem?_eq_none (Nat.le_refl _)
  have hchildren : (t.addNode label token).1.childrenAt t.size = [] := by
    rw [childrenAt_addNode, childrenAt, houtside]
    rfl
  have hparent : (t.addNode label token).1.parentAt t.size = none := by
    rw [parentAt_addNode, parentAt, houtside]
    rfl
  refine (h.addNode label token).link (by omega) (by omega) hparent fun hb => ?_
  have htop := hb.eq_top hchildren
  omega

/-- Whether a number is that of a rule other than the empty string. -/
def Grammar.growsAt (g : Grammar) (k : Nat) : Bool :=
  (g.ruleNumbered? k).any fun rule => decide (rule.2 ≠ epsilonBody)

namespace Parser

variable {p : Parser} {s : ParseState}

/-- A chosen rule brings a node unless it is the empty string. -/
theorem growsAt_of_chosenRule {a : Symbol} {k : Nat} {body : Body}
    (h : p.chosenRule a s = some (k, body)) :
    p.grammar.growsAt k = decide (body ≠ epsilonBody) := by
  rw [Grammar.growsAt, ruleNumbered?_of_chosenRule h]
  rfl

/-- The arena of a descent under way: a forest with a node for every token
taken and every rule applied that is not the empty string. -/
structure Tallied (p : Parser) (s : ParseState) : Prop where
  /-- The links agree and nothing climbs in circles. -/
  forest : s.tree.IsForest
  /-- The node of the start symbol is there. -/
  nonempty : 0 < s.tree.size
  /-- The nodes are counted. -/
  size_eq : s.tree.size = s.cursor + s.trace.countP p.grammar.growsAt

/-- Opening the start symbol brings one node for one rule. -/
theorem tallied_openedState {k : Nat} {body : Body}
    (hc : p.chosenRule p.grammar.start {} = some (k, body)) (hne : body ≠ epsilonBody) :
    p.Tallied (p.openedState k) where
  forest := ParseTree.IsForest.empty.addNode p.grammar.start none
  nonempty := Nat.zero_lt_one
  size_eq := by
    have hgrows : p.grammar.growsAt k = true := by
      rw [growsAt_of_chosenRule hc, decide_eq_true hne]
    have hcount : [k].countP p.grammar.growsAt = 1 := List.countP_singleton.trans (if_pos hgrows)
    rw [openedState, hcount]
    rfl

/-- A move keeps the tally: vanishing adds to the trace only, and the other
two moves that read a symbol add one node for one rule or one token. -/
theorem Tallied.move {stack frames : List Frame} {next : ParseState} (h : p.Tallied s)
    (hnodes : ∀ frame ∈ stack, frame.node < s.tree.size) (hm : p.Move s stack next frames) :
    p.Tallied next := by
  have hsize := h.size_eq
  cases hm with
  | leave => exact h
  | @vanish node k x unread below mem chosen =>
    refine ⟨h.forest, h.nonempty, ?_⟩
    have hstays : p.grammar.growsAt k = false := by
      rw [growsAt_of_chosenRule chosen]
      rfl
    rw [List.countP_append, List.countP_singleton, hstays]
    exact hsize
  | @enter node k x body unread below mem chosen ne =>
    have hnode := hnodes _ List.mem_cons_self
    have hgrows : p.grammar.growsAt k = true := by
      rw [growsAt_of_chosenRule chosen, decide_eq_true ne]
    refine ⟨h.forest.grow hnode x none, ?_, ?_⟩
    · rw [ParseTree.size_grow]
      exact Nat.succ_pos _
    · rw [ParseTree.size_grow, List.countP_append, List.countP_singleton, if_pos hgrows, hsize]
      rfl
  | @take node x unread below notMem unit =>
    have hnode := hnodes _ List.mem_cons_self
    refine ⟨h.forest.grow hnode x _, ?_, ?_⟩
    · rw [ParseTree.size_grow]
      exact Nat.succ_pos _
    · rw [ParseTree.size_grow, hsize]
      exact Nat.add_right_comm _ _ _

/-- Every configuration that is visited is tallied. -/
theorem tallied_of_visits {stack : List Frame} (h : p.Visits s stack) : p.Tallied s :=
  @Visits.invariant p (fun s _ => p.Tallied s) (fun _ _ => tallied_openedState)
    (fun _ _ _ _ visited hs hm => hs.move (node_lt_size_of_visits visited) hm) s stack h

/-- What a parse leaves in the arena. -/
structure FillsArena (p : Parser) (s : ParseState) : Prop where
  /-- A walk from the root visits all places of the arena in their order. -/
  walk : s.tree.walk none = .ok (List.range s.tree.size)
  /-- So the tree has as many nodes as the arena. -/
  reachable : s.tree.reachableCount = .ok s.tree.size
  /-- Links to children and links to parents agree. -/
  links : ∀ i c, c ∈ s.tree.childrenAt i ↔ s.tree.parentAt c = some i
  /-- The arena is a forest. -/
  forest : s.tree.IsForest
  /-- There is a node for every token taken and for every rule applied that is
  not the empty string. -/
  size_eq : s.tree.size = s.cursor + s.trace.countP p.grammar.growsAt

/-- A descent that ends without an error fills the arena with its tree. -/
theorem Ends.fillsArena (hg : p.grammar.Closed) {root : Option Nat} (h : p.Ends s (.ok root)) :
    p.FillsArena { s with tree := s.tree.setRoot root } := by
  have hwalk := (h.isParseTree hg).walk
  have hreachable : ParseTree.reachableCount (s.tree.setRoot root) =
      .ok (s.tree.setRoot root).size := by
    rw [ParseTree.reachableCount, hwalk]
    exact congrArg Except.ok List.length_range
  have tally : (s.tree.setRoot root).IsForest ∧
      s.tree.size = s.cursor + s.trace.countP p.grammar.growsAt := by
    cases h with
    | @vanished k chosen =>
      refine ⟨ParseTree.IsForest.empty, ?_⟩
      have hstays : p.grammar.growsAt k = false := by
        rw [growsAt_of_chosenRule chosen]
        rfl
      rw [List.countP_singleton, hstays]
      rfl
    | read visited =>
      have ht := tallied_of_visits visited
      refine ⟨ht.forest.setRoot fun r hr => ?_, ht.size_eq⟩
      rw [← Option.some.inj hr]
      exact ht.nonempty
  exact ⟨hwalk, hreachable, tally.1.mem_childrenAt_iff, tally.1, tally.2⟩

/-- A parse that succeeds leaves an arena without garbage: the walk from the
root visits the places in the order of the arena, links to children and to
parents agree, and the nodes are as many as the tokens taken and the rules in
the trace that are not the empty string. -/
theorem make_parse_fillsArena {settings : Settings} {g : Grammar} {units : Option UnitMap}
    {tokens : List Token} {p : Parser} (hg : g.Closed)
    (hp : make settings g units tokens = .ok p) {limit : Nat} {o : Outcome Unit}
    (ho : p.parseWithin limit = some o) (hok : o.result = .ok ()) : p.FillsArena o.state := by
  have hclosed := (hg.reduce (made_of_make hp).reduced).1
  obtain ⟨last, result, hend, rfl⟩ := ends_of_parseWithin ho
  obtain ⟨root, rfl, hstate⟩ := conclude_eq_ok hok
  rw [hstate]
  exact hend.fillsArena hclosed

/-- The sum `x + x` takes three tokens and applies four rules, the last of
which is the empty string: the arena has six nodes. -/
theorem make_parse_fillsArena_sums :
    Grammar.sums.Closed ∧
    ∃ p o, make {} Grammar.sums none (Token.ofNames ["x", "+", "x", "end"]) = .ok p ∧
      p.parseWithin 20 = some o ∧ o.result = .ok () ∧ p.FillsArena o.state ∧
      o.state.cursor = 3 ∧ o.state.trace = [1, 2, 3, 4] ∧
      o.state.tree.walk none = .ok [0, 1, 2, 3, 4, 5] := by
  have hrun : ((make {} Grammar.sums none (Token.ofNames ["x", "+", "x", "end"])).toOption.bind
      fun p => (p.parseWithin 20).map fun o =>
        (o.result.toOption, o.state.cursor, o.state.trace, o.state.tree.size)) =
      some (some (), 3, [1, 2, 3, 4], 6) := by
    decide +kernel
  obtain ⟨p, hmake, hparse⟩ := exists_of_make_bind hrun
  obtain ⟨o, ho, hresult⟩ := Option.map_eq_some_iff.mp hparse
  obtain ⟨hvalue, hstate⟩ := Prod.mk.inj hresult
  obtain ⟨hcursor, htrace, hsize⟩ : o.state.cursor = 3 ∧ o.state.trace = [1, 2, 3, 4] ∧
      o.state.tree.size = 6 := by
    simpa only [Prod.mk.injEq] using hstate
  have hok : o.result = .ok () := Outcome.eq_ok_of_toOption hvalue
  have hfills := make_parse_fillsArena Grammar.sums_closed hmake ho hok
  have hwalk := hfills.walk
  rw [hsize] at hwalk
  exact ⟨Grammar.sums_closed, p, o, hmake, ho, hok, hfills, hcursor, htrace, hwalk⟩

end Parser

end PredictiveParsing
