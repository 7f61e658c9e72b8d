import PredictiveParsing.Proofs.Descent.Subtrees
import PredictiveParsing.Proofs.Grammar.Names
import PredictiveParsing.Proofs.Reduction.Stages

/-!
# The tree of a successful parse is a parse tree

While a descent is under way the arena holds a spine: the nodes of the
frames, one below the other, each with the finished subtrees to the left of
the next one. Every move keeps the spine, and where no frame is left it has
become a whole subtree of the start symbol. A symbol that vanished has left
no node, so the children of a node fit its alternative with such symbols left
out. The table may have conflicts.
-/

namespace PredictiveParsing.Parser

/-- The spine of a descent under way: a stack of frames over an arena. The
frame on top is finished up to a place and a token, where a child with a
label may have been begun whose subtree is not part of the spine. -/
inductive Spine (p : Parser) (nodes : Array ParseNode) :
    List Frame → Option Symbol → Nat → Nat → Prop
  /-- The start symbol is begun. -/
  | root : Spine p nodes [] (some p.grammar.start) 0 0
  /-- The start symbol is finished. -/
  | complete {hi k : Nat} (tree : p.Laid nodes none 0 0 [0] [p.grammar.start] hi k) :
      Spine p nodes [] none hi k
  /-- A variable is begun, a part of its alternative is read, and the frames
  below are finished up to its node. -/
  | frame {node hi first k : Nat} {a : Symbol} {read unread : Body} {below : List Frame}
      {child : Option Symbol} {places : List Nat} {labels : List Symbol}
      (stored : nodes[node]? = some
        ⟨a, none, places ++ (child.map fun _ => hi).toList, below.head?.map Frame.node⟩)
      (mem : read ++ unread ∈ p.grammar.rulesOf a) (ne : read ++ unread ≠ epsilonBody)
      (fits : p.grammar.Fits read (labels ++ child.toList))
      (inner : p.Laid nodes (some node) (node + 1) first places labels hi k)
      (outer : Spine p nodes below (some a) node first) :
      Spine p nodes (⟨node, unread⟩ :: below) child hi k

variable {p : Parser} {nodes : Array ParseNode} {below : List Frame} {node hi k : Nat}

/-- Only the nodes before the end count. -/
theorem Spine.congr {nodes' : Array ParseNode} {stack : List Frame} {child : Option Symbol}
    (h : p.Spine nodes stack child hi k) (same : ∀ i, i < hi → nodes'[i]? = nodes[i]?) :
    p.Spine nodes' stack child hi k := by
  induction h with
  | root => exact .root
  | complete tree => exact .complete (tree.congr fun i _ h => same i h)
  | @frame node hi first k a read unread below child places labels stored mem ne fits inner _ ih =>
    have hle := inner.le
    have hstored := same node (by omega)
    exact .frame (hstored.trans stored) mem ne fits (inner.congr fun i _ h => same i h)
      (ih fun i h => same i (by omega))

/-- The subtree of a child that was begun is finished. -/
theorem Spine.close {stack : List Frame} {x : Symbol} {lo last : Nat}
    (h : p.Spine nodes stack (some x) lo k)
    (hx : p.Laid nodes (stack.head?.map Frame.node) lo k [lo] [x] hi last) :
    p.Spine nodes stack none hi last := by
  cases h with
  | root => exact .complete hx
  | @frame node _ first _ a read unread below _ places labels stored mem ne fits inner outer =>
    refine .frame ?_ mem ne ?_ (inner.append hx) outer
    · rw [Option.map_none, Option.toList_none, List.append_nil]
      exact stored
    · rw [Option.toList_none, List.append_nil]
      exact fits

/-- A frame that is read to its end is a finished subtree. -/
theorem Spine.leave (h : p.Spine nodes (⟨node, []⟩ :: below) none hi k) :
    p.Spine nodes below none hi k := by
  cases h with
  | @frame _ _ first _ a read _ _ _ places labels stored mem ne fits inner outer =>
    rw [Option.map_none, Option.toList_none, List.append_nil] at stored
    rw [Option.toList_none, List.append_nil] at fits
    rw [List.append_nil] at mem ne
    exact outer.close (.branch stored mem ne fits inner .nil)

/-- A symbol that vanishes is read without a child. -/
theorem Spine.vanish {x : Symbol} {unread : Body}
    (h : p.Spine nodes (⟨node, x :: unread⟩ :: below) none hi k)
    (hx : p.grammar.hasEpsilonRule x = true) :
    p.Spine nodes (⟨node, unread⟩ :: below) none hi k := by
  cases h with
  | @frame _ _ first _ a read _ _ _ places labels stored mem ne fits inner outer =>
    rw [← List.singleton_append, ← List.append_assoc] at mem ne
    have hfits := fits.append (.absent hx .nil)
    rw [List.append_nil] at hfits
    exact .frame stored mem ne hfits inner outer

/-- A further node is the child that is begun. -/
theorem Spine.grow {t : ParseTree} {x : Symbol} {unread : Body}
    (h : p.Spine t.nodes (⟨node, x :: unread⟩ :: below) none t.size k) (token : Option Token) :
    p.Spine (t.grow node x token).nodes (⟨node, unread⟩ :: below) (some x) t.size k := by
  cases h with
  | @frame _ _ first _ a read _ _ _ places labels stored mem ne fits inner outer =>
    have hle := inner.le
    have hlt : node < t.size := by omega
    have hsame : ∀ i, i < t.size → i ≠ node →
        (t.grow node x token).nodes[i]? = t.nodes[i]? :=
      fun i hi hne => ParseTree.nodes_grow_of_ne hi hne x token
    rw [← List.singleton_append, ← List.append_assoc] at mem ne
    rw [Option.map_none, Option.toList_none, List.append_nil] at stored
    rw [Option.toList_none, List.append_nil] at fits
    refine .frame (ParseTree.nodes_grow_parent hlt x token stored) mem ne
      (fits.append (.present .nil)) (inner.congr fun i hlo hi => hsame i hi (by omega))
      (outer.congr fun i hi => hsame i (by omega) (by omega))

/-- A terminal that takes the current token is a finished leaf. -/
theorem Spine.take (hg : p.grammar.Closed) {t : ParseTree} {x : Symbol} {unread : Body}
    (h : p.Spine t.nodes (⟨node, x :: unread⟩ :: below) none t.size k)
    (hx : x ∉ p.grammar.vars) (hu : (p.stream.token k).unit = p.unitOf x) :
    p.Spine (t.grow node x (some (p.stream.token k))).nodes (⟨node, unread⟩ :: below) none
      (t.size + 1) (k + 1) := by
  have hgrown := h.grow (some (p.stream.token k))
  cases h with
  | @frame _ _ first _ a read _ _ _ places labels stored mem ne fits inner outer =>
    have hle := inner.le
    have hlt : node < t.size := by omega
    have hmem : x ∈ read ++ x :: unread := List.mem_append_right _ List.mem_cons_self
    have hspelled : x ∈ Body.spelled (read ++ x :: unread) := by
      rw [Grammar.spelled_of_mem_rulesOf mem ne]
      exact hmem
    have hterminal : x.isTerminal = true :=
      (hg.mem_vars_or_isTerminal mem hspelled).elim (fun hv => absurd hv hx) id
    exact hgrown.close (.leaf (ParseTree.nodes_grow_size hlt x _) hterminal hu .nil)

/-- A variable that is opened is begun, and nothing of its alternative is
read. -/
theorem Spine.enter {t : ParseTree} {x : Symbol} {body unread : Body}
    (h : p.Spine t.nodes (⟨node, x :: unread⟩ :: below) none t.size k)
    (hb : body ∈ p.grammar.rulesOf x) (hne : body ≠ epsilonBody) :
    p.Spine (t.grow node x none).nodes (⟨t.size, body⟩ :: ⟨node, unread⟩ :: below) none
      (t.size + 1) k := by
  have hgrown := h.grow none
  have hlt : node < t.size := by
    cases h with
    | frame stored mem ne fits inner outer =>
      have hle := inner.le
      omega
  have hmem : [] ++ body ∈ p.grammar.rulesOf x := hb
  exact .frame (ParseTree.nodes_grow_size hlt x none) hmem hne .nil .nil hgrown

/-- Every configuration that is visited has its spine. -/
theorem spine_of_visits (hg : p.grammar.Closed) {s : ParseState} {stack : List Frame}
    (h : p.Visits s stack) : p.Spine s.tree.nodes stack none s.tree.size s.cursor := by
  refine @Visits.invariant p (fun s stack =>
    p.Spine s.tree.nodes stack none s.tree.size s.cursor) ?_ ?_ s stack h
  · intro number body hc hb
    have hmem : [] ++ body ∈ p.grammar.rulesOf p.grammar.start := mem_rulesOf_of_chosenRule hc
    exact .frame rfl hmem hb .nil .nil .root
  · intro s stack next frames _ hs hm
    cases hm with
    | leave => exact hs.leave
    | vanish mem chosen =>
      exact hs.vanish (Grammar.hasEpsilonRule_iff.mpr (mem_rulesOf_of_chosenRule chosen))
    | enter mem chosen ne =>
      rw [ParseTree.size_grow]
      exact hs.enter (mem_rulesOf_of_chosenRule chosen) ne
    | take notMem unit =>
      rw [ParseTree.size_grow]
      exact hs.take hg notMem unit

/-- What the tree of a state is after a successful parse. -/
structure IsParseTree (p : Parser) (s : ParseState) : Prop where
  /-- There is no root only if the start symbol can vanish. -/
  vanishes : s.tree.root = none → p.grammar.hasEpsilonRule p.grammar.start = true
  /-- The root stands for the start symbol. -/
  root : ∀ r, s.tree.root = some r → s.tree.label r = .ok p.grammar.start
  /-- A walk from the root visits every node of the arena once. -/
  walk : s.tree.walk none = .ok (List.range s.tree.size)
  /-- Every node has the children and the token that its label demands. -/
  nodeFits : ∀ i n, s.tree.nodes[i]? = some n → p.NodeFits s.tree i n
  /-- The leaves carry the tokens before the cursor in order. -/
  leaves : s.tree.leaves none = .ok ((List.range s.cursor).map fun i => some (p.stream.token i))

/-- A subtree of the start symbol that fills the arena is a parse tree. -/
theorem isParseTree_of_laid (hg : p.grammar.Closed) {s : ParseState} (hroot : s.tree.root = some 0)
    (h : p.Laid s.tree.nodes none 0 0 [0] [p.grammar.start] s.tree.size s.cursor) :
    p.IsParseTree s := by
  have hlimit : s.tree.visitLimit + 1 = Nat.pow (s.tree.arity + 1) s.tree.size + 1 + s.tree.size := by
    rw [ParseTree.visitLimit]
    omega
  have hwalk : s.tree.walk none = .ok (List.range s.tree.size) := by
    have hnone : s.tree.visit (Nat.pow (s.tree.arity + 1) s.tree.size + 1) [] = .ok [] := by
      rw [ParseTree.visit]
    have hvisit := h.visit hnone
    rw [Nat.sub_zero, ← hlimit, List.append_nil, List.append_nil,
      ← List.range_eq_range'] at hvisit
    rw [ParseTree.walk, ParseTree.walkStart, hroot]
    exact hvisit
  have hleaves := h.leafTokens hg rfl
  have hall : s.tree.nodes.toList.take s.tree.size = s.tree.nodes.toList :=
    List.take_of_length_le (Nat.le_of_eq Array.length_toList)
  refine ⟨fun hn => ?_, fun r hr => ?_, hwalk, fun i n hn => ?_, ?_⟩
  · rw [hroot] at hn
    cases hn
  · rw [hroot] at hr
    rw [← Option.some.inj hr]
    have hlabel := h.labels_eq
    exact (List.cons.inj hlabel).1
  · have hlt : i < s.tree.size := by
      by_contra hge
      rw [Array.getElem?_eq_none (Nat.le_of_not_lt hge)] at hn
      cases hn
    obtain ⟨n', hn', hfits⟩ := h.nodeFits hg i (Nat.zero_le i) hlt
    rw [hn] at hn'
    rw [Option.some.inj hn']
    exact hfits
  · rw [ParseTree.leaves_eq_ok hwalk, ← hleaves, hall]

/-- The empty tree is a parse tree where the start symbol vanishes. -/
theorem isParseTree_of_vanished {number : Nat}
    (h : p.chosenRule p.grammar.start {} = some (number, epsilonBody)) :
    p.IsParseTree { trace := [number] } where
  vanishes := fun _ => Grammar.hasEpsilonRule_iff.mpr (mem_rulesOf_of_chosenRule h)
  root := fun r hr => by cases hr
  walk := rfl
  nodeFits := fun i n hn => by cases hn
  leaves := rfl

/-- A descent that ends without an error leaves a parse tree once the root
is set. -/
theorem Ends.isParseTree (hg : p.grammar.Closed) {s : ParseState} {root : Option Nat}
    (h : p.Ends s (.ok root)) : p.IsParseTree { s with tree := s.tree.setRoot root } := by
  cases h with
  | vanished chosen => exact isParseTree_of_vanished chosen
  | read visited =>
    have hspine := spine_of_visits hg visited
    cases hspine with
    | complete tree => exact isParseTree_of_laid hg rfl tree

/-- A parse that succeeds leaves a parse tree of the reduced grammar, with
the nodes of vanished symbols left out. Its leaves carry the first tokens of
the stream, as many as the cursor tells, where the last token stands for all
that are asked for beyond the end. If the end of the stream is demanded, the
token at the cursor has the unit of the last one. -/
theorem make_parse_tree {settings : Settings} {g : Grammar} {units : Option UnitMap}
    {tokens : List Token} {p : Parser} (hg : g.Closed)
    (hp : make settings g units tokens = .ok p) {limit : Nat} {o : Outcome Unit}
    (ho : p.parseWithin limit = some o) (hok : o.result = .ok ()) :
    p.IsParseTree o.state ∧
    o.state.tree.leaves none =
      .ok ((List.range o.state.cursor).map fun j => tokens[min j (tokens.length - 1)]?) ∧
    (settings.requireEndOfStream = true →
      (tokens[min o.state.cursor (tokens.length - 1)]?).map Token.unit =
        tokens.getLast?.map Token.unit) := by
  have hmade := made_of_make hp
  have hclosed := (hg.reduce hmade.reduced).1
  obtain ⟨last, result, hend, rfl⟩ := ends_of_parseWithin ho
  cases result with
  | error e => cases hok
  | ok root =>
    have htree := hend.isParseTree hclosed
    rw [conclude] at hok ⊢
    dsimp only at hok ⊢
    split at hok
    · cases hok
    · next hunit =>
      rw [if_neg hunit]
      refine ⟨htree, ?_, fun hrequired => ?_⟩
      · rw [htree.leaves]
        exact congrArg Except.ok (List.map_congr_left fun j _ => (hmade.token_eq j).symm)
      · have heq : (p.stream.token last.cursor).unit = p.stream.endUnit := by
          by_contra hne
          exact hunit ⟨hmade.settings_eq ▸ hrequired, hne⟩
        rw [hmade.token_eq, hmade.endUnit_eq, Option.map_some]
        exact congrArg some heq

/-- The sum `x + x` has a parse tree in the reduced grammar of sums; its
leaves carry the three tokens before the end marker. -/
theorem make_parse_tree_sums :
    Grammar.sums.Closed ∧
    ∃ p o, make {} Grammar.sums none (Token.ofNames ["x", "+", "x", "end"]) = .ok p ∧
      p.parseWithin 20 = some o ∧ o.result = .ok () ∧ p.IsParseTree o.state ∧
      o.state.tree.leaves none = .ok ((Token.ofNames ["x", "+", "x"]).map some) := by
  have hrun : ((make {} Grammar.sums none (Token.ofNames ["x", "+", "x", "end"])).toOption.bind
      fun p => (p.parseWithin 20).map fun o => (o.result.toOption, o.state.cursor)) =
      some (some (), 3) := by
    decide +kernel
  obtain ⟨p, hmake, hparse⟩ := exists_of_make_bind hrun
  obtain ⟨o, ho, hresult⟩ := Option.map_eq_some_iff.mp hparse
  have hcursor : o.state.cursor = 3 := (Prod.mk.inj hresult).2
  have hok : o.result = .ok () := Outcome.eq_ok_of_toOption (Prod.mk.inj hresult).1
  obtain ⟨htree, hleaves, -⟩ := make_parse_tree Grammar.sums_closed hmake ho hok
  rw [hcursor] at hleaves
  exact ⟨Grammar.sums_closed, p, o, hmake, ho, hok, htree, hleaves⟩

end PredictiveParsing.Parser
