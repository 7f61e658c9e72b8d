import PredictiveParsing.Proofs.Descent.Moves

/-!
# Subtrees laid out in an arena

The nodes of a subtree that a descent has finished lie next to each other in
the arena, each before what is below it, and its leaves carry consecutive
tokens of the stream. Of such a layout follows what can be asked of a parse
tree: where the nodes are, which symbols stand below a variable, in which
order a walk visits the nodes, and which tokens the leaves carry.
-/

namespace PredictiveParsing

/-- The labels below a node fit a body: there is one for each symbol in
order, where a symbol that has the empty string as an alternative may be
left out. -/
inductive Grammar.Fits (g : Grammar) : Body → List Symbol → Prop
  /-- No symbol, no label. -/
  | nil : Fits g [] []
  /-- The symbol is there. -/
  | present {x : Symbol} {body : Body} {labels : List Symbol} (tail : Fits g body labels) :
      Fits g (x :: body) (x :: labels)
  /-- The symbol is left out. -/
  | absent {x : Symbol} {body : Body} {labels : List Symbol} (vanishes : g.hasEpsilonRule x = true)
      (tail : Fits g body labels) : Fits g (x :: body) labels

/-- Bodies and labels are continued side by side. -/
theorem Grammar.Fits.append {g : Grammar} {x y : Body} {l m : List Symbol} (hx : g.Fits x l)
    (hy : g.Fits y m) : g.Fits (x ++ y) (l ++ m) := by
  induction hx with
  | nil => exact hy
  | present _ ih => exact .present ih
  | absent vanishes _ ih => exact .absent vanishes ih

namespace Parser

/-- Subtrees laid out in an arena one after the other. They belong to an
owner, begin at a place and at a token of the stream, have roots at some
places with some labels, and end before a place and a token. -/
inductive Laid (p : Parser) (nodes : Array ParseNode) :
    Option Nat → Nat → Nat → List Nat → List Symbol → Nat → Nat → Prop
  /-- No subtree. -/
  | nil {owner : Option Nat} {lo k : Nat} : Laid p nodes owner lo k [] [] lo k
  /-- A leaf with the token, and further subtrees. -/
  | leaf {owner : Option Nat} {lo k hi last : Nat} {x : Symbol} {places : List Nat}
      {labels : List Symbol} (node : nodes[lo]? = some ⟨x, some (p.stream.token k), [], owner⟩)
      (terminal : x.isTerminal = true) (unit : (p.stream.token k).unit = p.unitOf x)
      (rest : Laid p nodes owner (lo + 1) (k + 1) places labels hi last) :
      Laid p nodes owner lo k (lo :: places) (x :: labels) hi last
  /-- A variable with subtrees that fit an alternative, and further
  subtrees. -/
  | branch {owner : Option Nat} {lo k mid next hi last : Nat} {a : Symbol} {body : Body}
      {children places : List Nat} {below labels : List Symbol}
      (node : nodes[lo]? = some ⟨a, none, children, owner⟩)
      (mem : body ∈ p.grammar.rulesOf a) (ne : body ≠ epsilonBody)
      (fits : p.grammar.Fits body below)
      (inner : Laid p nodes (some lo) (lo + 1) k children below mid next)
      (rest : Laid p nodes owner mid next places labels hi last) :
      Laid p nodes owner lo k (lo :: places) (a :: labels) hi last

variable {p : Parser} {nodes : Array ParseNode} {owner : Option Nat} {lo hi k last : Nat}
  {places : List Nat} {labels : List Symbol}

/-- Subtrees do not end before they begin. -/
theorem Laid.le (h : p.Laid nodes owner lo k places labels hi last) : lo ≤ hi := by
  induction h with
  | nil => exact Nat.le_refl _
  | leaf _ _ _ _ ih => omega
  | branch _ _ _ _ _ _ ihi ihr => omega

/-- Subtrees are continued by subtrees. -/
theorem Laid.append {mid next : Nat} {places' : List Nat} {labels' : List Symbol}
    (h : p.Laid nodes owner lo k places labels mid next)
    (h' : p.Laid nodes owner mid next places' labels' hi last) :
    p.Laid nodes owner lo k (places ++ places') (labels ++ labels') hi last := by
  induction h with
  | nil => exact h'
  | leaf node terminal unit _ ih => exact .leaf node terminal unit (ih h')
  | branch node mem ne fits inner _ _ ih => exact .branch node mem ne fits inner (ih h')

/-- Only the nodes between the beginning and the end count. -/
theorem Laid.congr {nodes' : Array ParseNode} (h : p.Laid nodes owner lo k places labels hi last)
    (same : ∀ i, lo ≤ i → i < hi → nodes'[i]? = nodes[i]?) :
    p.Laid nodes' owner lo k places labels hi last := by
  induction h with
  | nil => exact .nil
  | leaf node terminal unit rest ih =>
    have hle := rest.le
    have hnode := same _ (Nat.le_refl _) (by omega)
    exact .leaf (hnode.trans node) terminal unit (ih fun i h h' => same i (by omega) h')
  | branch node mem ne fits inner rest ihi ihr =>
    have hle := rest.le
    have hinner := inner.le
    have hnode := same _ (Nat.le_refl _) (by omega)
    exact .branch (hnode.trans node) mem ne fits
      (ihi fun i h h' => same i (by omega) (by omega))
      (ihr fun i h h' => same i (by omega) h')

/-- The labels are those of the roots. -/
theorem Laid.labels_eq {t : ParseTree} (h : p.Laid t.nodes owner lo k places labels hi last) :
    places.map t.label = labels.map .ok := by
  induction h with
  | nil => rfl
  | leaf node _ _ _ ih =>
    rw [List.map_cons, List.map_cons, ih, ParseTree.label, ParseTree.node, node]
    rfl
  | branch node _ _ _ _ _ _ ih =>
    rw [List.map_cons, List.map_cons, ih, ParseTree.label, ParseTree.node, node]
    rfl

/-- The roots belong to the owner. -/
theorem Laid.parent_eq {t : ParseTree} (h : p.Laid t.nodes owner lo k places labels hi last) :
    places.map t.parent = places.map fun _ => .ok owner := by
  induction h with
  | nil => rfl
  | leaf node _ _ _ ih =>
    rw [List.map_cons, List.map_cons, ih, ParseTree.parent, ParseTree.node, node]
    rfl
  | branch node _ _ _ _ _ _ ih =>
    rw [List.map_cons, List.map_cons, ih, ParseTree.parent, ParseTree.node, node]
    rfl

/-- What the node at a place of a parse tree is. -/
structure NodeFits (p : Parser) (t : ParseTree) (i : Nat) (n : ParseNode) : Prop where
  /-- It stands for a variable or a terminal. -/
  kind : n.label ∈ p.grammar.vars ∨ n.label.isTerminal = true
  /-- Below a variable stand symbols that fit an alternative other than the
  empty string. -/
  expanded : n.label ∈ p.grammar.vars → ∃ body ∈ p.grammar.rulesOf n.label,
    body ≠ epsilonBody ∧ ∃ labels, n.children.map t.label = labels.map .ok ∧
      p.grammar.Fits body labels
  /-- A terminal is childless and carries a token of its unit. -/
  matched : n.label.isTerminal = true → n.children = [] ∧
    ∃ token, n.token = some token ∧ token.unit = p.unitOf n.label
  /-- The children have the node as their parent. -/
  links : n.children.map t.parent = n.children.map fun _ => .ok (some i)

/-- Every node between the beginning and the end is one of a parse tree. -/
theorem Laid.nodeFits (hg : p.grammar.Closed) {t : ParseTree}
    (h : p.Laid t.nodes owner lo k places labels hi last) :
    ∀ i, lo ≤ i → i < hi → ∃ n, t.nodes[i]? = some n ∧ p.NodeFits t i n := by
  induction h with
  | nil =>
    intro i hlo hhi
    omega
  | @leaf owner lo k hi last x places labels node terminal unit rest ih =>
    intro i hlo hhi
    by_cases he : i = lo
    · rw [he]
      refine ⟨_, node, .inr terminal, fun hv => ?_, fun _ => ⟨rfl, _, rfl, unit⟩, rfl⟩
      exact absurd hv (hg.notMem_vars_of_isTerminal terminal)
    · exact ih i (by omega) hhi
  | @branch owner lo k mid next hi last a body children places below labels node mem ne fits inner
      rest ihi ihr =>
    intro i hlo hhi
    by_cases he : i = lo
    · rw [he]
      have hv := Grammar.mem_vars_of_mem_rulesOf mem
      refine ⟨_, node, .inl hv, fun _ => ⟨body, mem, ne, below, inner.labels_eq, fits⟩,
        fun ht => ?_, inner.parent_eq⟩
      exact absurd hv (hg.notMem_vars_of_isTerminal ht)
    · by_cases hm : i < mid
      · exact ihi i (by omega) hm
      · exact ihr i (by omega) hhi

/-- Places in a row are cut in two. -/
theorem range'_split {lo mid hi : Nat} (hlo : lo ≤ mid) (hhi : mid ≤ hi) :
    List.range' lo (hi - lo) = List.range' lo (mid - lo) ++ List.range' mid (hi - mid) := by
  have hmid : mid = lo + 1 * (mid - lo) := by omega
  have hn : hi - lo = mid - lo + (hi - mid) := by omega
  rw [hn, ← List.range'_append, ← hmid]

/-- A walk visits the nodes of subtrees in the order of the arena. -/
theorem Laid.visit {t : ParseTree} (h : p.Laid t.nodes owner lo k places labels hi last)
    {limit : Nat} {waiting seen : List Nat} (hw : t.visit limit waiting = .ok seen) :
    t.visit (limit + (hi - lo)) (places ++ waiting) = .ok (List.range' lo (hi - lo) ++ seen) := by
  induction h generalizing limit waiting seen with
  | nil =>
    rw [Nat.sub_self]
    exact hw
  | @leaf owner lo k hi last x places labels node terminal unit rest ih =>
    have hle := rest.le
    have hn : hi - lo = hi - (lo + 1) + 1 := by omega
    rw [hn, ← Nat.add_assoc, List.cons_append, ParseTree.visit, node]
    dsimp only
    rw [List.nil_append, ih hw]
    rfl
  | @branch owner lo k mid next hi last a body children places below labels node mem ne fits inner
      rest ihi ihr =>
    have hle := rest.le
    have hinner := inner.le
    have hn : limit + (hi - lo) = limit + (hi - mid) + (mid - (lo + 1)) + 1 := by omega
    have hr : hi - lo = hi - (lo + 1) + 1 := by omega
    rw [hn, hr, List.cons_append, ParseTree.visit, node]
    dsimp only
    rw [ihi (ihr hw), ← List.append_assoc, ← range'_split hinner hle]
    rfl

/-- The leaves carry the tokens of the stream in order. -/
theorem Laid.leafTokens (hg : p.grammar.Closed)
    (h : p.Laid nodes owner lo k places labels hi last)
    (before : ParseTree.leafTokens (nodes.toList.take lo) =
      (List.range k).map fun i => some (p.stream.token i)) :
    ParseTree.leafTokens (nodes.toList.take hi) =
      (List.range last).map fun i => some (p.stream.token i) := by
  have further : ∀ {i : Nat} {n : ParseNode}, nodes[i]? = some n →
      ParseTree.leafTokens (nodes.toList.take (i + 1)) =
        ParseTree.leafTokens (nodes.toList.take i) ++ ParseTree.leafTokens [n] := by
    intro i n hn
    rw [List.take_add_one, Array.getElem?_toList, hn, ParseTree.leafTokens, List.filter_append,
      List.map_append]
    rfl
  induction h with
  | nil => exact before
  | @leaf owner lo k hi last x places labels node terminal unit rest ih =>
    refine ih ?_
    have hleaf : ParseNode.isLeaf ⟨x, some (p.stream.token k), [], owner⟩ = true := terminal
    rw [further node, before, ParseTree.leafTokens, List.filter_cons_of_pos hleaf,
      List.range_succ, List.map_append]
    rfl
  | @branch owner lo k mid next hi last a body children places below labels node mem ne fits inner
      rest ihi ihr =>
    refine ihr (ihi ?_)
    have hvar := hg.vars_nonterminal a (Grammar.mem_vars_of_mem_rulesOf mem)
    have hleaf : ¬ParseNode.isLeaf ⟨a, none, children, owner⟩ = true := by
      rw [ParseNode.isLeaf, Bool.and_eq_true]
      intro hl
      cases a with
      | nonterminal n => cases hl.2
      | epsilon => cases hvar
      | terminal t => cases hvar
    rw [further node, before, ParseTree.leafTokens, List.filter_cons_of_neg hleaf]
    exact List.append_nil _

end Parser

end PredictiveParsing
