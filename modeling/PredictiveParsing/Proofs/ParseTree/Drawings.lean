import PredictiveParsing.ParseTree.Drawing
import PredictiveParsing.Proofs.ParseTree.Walks
import PredictiveParsing.Proofs.Text.Escape

/-!
# Drawings of forests

An outline of a tree carries depths on its stack, and the description of a
graph asks for the children of the places that a walk visits. Both show the
same tree as the recursion on subtrees: the outline has an entry for each place
that can be reached, indented by its distance from the root, and the graph has
a statement for each such place and one for each link below it. Statements are
told apart by the numbers in them, which are written in decimals and end where
the digits end.
-/

namespace PredictiveParsing

namespace OrderedTree

variable {α : Type}

/-- The labels in pre-order, each with its distance from the top, where the top
is counted with a given number. -/
def levels : OrderedTree α → Nat → List (α × Nat) :=
  fold fun a parts depth => (a, depth) :: parts.flatMap fun part => part (depth + 1)

theorem levels_node (a : α) (children : List (OrderedTree α)) (depth : Nat) :
    (node a children).levels depth =
      (a, depth) :: children.flatMap fun b => b.levels (depth + 1) := by
  rw [levels, fold_node, List.flatMap_map]

/-- A tree of texts as indented entries: the text of a node behind two spaces
for each step from the top, then the entries of the trees below it. -/
def indented : OrderedTree String → Nat → List String :=
  fold fun s parts depth =>
    (Text.spaces (2 * depth) ++ s) :: parts.flatMap fun part => part (depth + 1)

theorem indented_node (s : String) (children : List (OrderedTree String)) (depth : Nat) :
    (node s children).indented depth =
      (Text.spaces (2 * depth) ++ s) :: children.flatMap fun b => b.indented (depth + 1) := by
  rw [indented, fold_node, List.flatMap_map]

/-- Distances apart the labels are those of the pre-order. -/
theorem map_fst_levels (b : OrderedTree α) (depth : Nat) :
    (b.levels depth).map Prod.fst = b.preorder := by
  induction b generalizing depth with
  | node a children ih =>
    rw [levels_node, preorder_node, List.map_cons, List.map_flatMap]
    exact congrArg (a :: ·) (List.flatMap_congr fun b hb => ih b hb (depth + 1))

/-- Each entry is indented by the distance of its label. -/
theorem indented_map (f : α → String) (b : OrderedTree α) (depth : Nat) :
    (b.map f).indented depth = (b.levels depth).map fun e => Text.spaces (2 * e.2) ++ f e.1 := by
  induction b generalizing depth with
  | node a children ih =>
    rw [map_node, indented_node, levels_node, List.map_cons, List.map_flatMap, List.flatMap_map]
    exact congrArg _ (List.flatMap_congr fun b hb => ih b hb (depth + 1))

end OrderedTree

namespace ParseTree

variable {t : ParseTree} {i j p c r : Nat}

/-- The tree at a place with the captions of its nodes. -/
def captions (t : ParseTree) (showValues : Bool) (i : Nat) : OrderedTree String :=
  (t.subtree i).map fun j => (t.nodeAt j).caption showValues

/-- One step more to the parent. -/
theorem ancestor_succ (t : ParseTree) (n i : Nat) :
    t.ancestor (n + 1) i = (t.ancestor n i).bind t.parentAt := by
  induction n generalizing i with
  | zero => cases hp : t.parentAt i <;> simp [ancestor, hp]
  | succ n ih =>
    rw [ancestor]
    cases hp : t.parentAt i with
    | none => rw [ancestor, hp]; rfl
    | some p =>
      rw [Option.bind_some, ih p, ancestor, hp]
      rfl

namespace Linked

/-- A caption is followed by the trees of the children. -/
theorem captions_eq (h : t.Linked) (showValues : Bool) (i : Nat) :
    t.captions showValues i =
      .node ((t.nodeAt i).caption showValues) ((t.childrenAt i).map (t.captions showValues)) := by
  rw [captions, h.subtree_eq, OrderedTree.map_node, List.map_map]
  rfl

/-- The distances in a subtree are numbers of steps to parents. -/
theorem ancestor_of_mem_levels (h : t.Linked) {depth : Nat} {e : Nat × Nat}
    (he : e ∈ (t.subtree i).levels depth) :
    ∃ n, e.2 = depth + n ∧ t.ancestor n e.1 = some i := by
  induction i using h.induction generalizing depth with
  | step i ih =>
    rw [h.subtree_eq, OrderedTree.levels_node, List.mem_cons, List.flatMap_map,
      List.mem_flatMap] at he
    rcases he with rfl | ⟨c, hc, he⟩
    · exact ⟨0, rfl, rfl⟩
    · obtain ⟨n, hdepth, hup⟩ := ih c hc he
      refine ⟨n + 1, by omega, ?_⟩
      rw [ancestor_succ, hup]
      exact (h.mem_childrenAt_iff i c).mp hc

/-- A subtree on top of the stack is outlined with indentation, and then what
waits below it. -/
theorem outline_eq (h : t.Linked) (hi : i < t.size) (showValues : Bool) {limit : Nat} (depth : Nat)
    {waiting : List (Nat × Nat)} {entries : List String}
    (hw : t.outline showValues limit waiting = .ok entries) :
    t.outline showValues (limit + (t.preorder i).length) ((i, depth) :: waiting) =
      .ok ((t.captions showValues i).indented depth ++ entries) := by
  induction i using h.induction generalizing limit depth waiting entries with
  | step i ih =>
    have each : ∀ e ∈ (t.childrenAt i).map fun c => (c, depth + 1),
        ∀ {limit : Nat} {waiting : List (Nat × Nat)} {entries : List String},
          t.outline showValues limit waiting = .ok entries →
          t.outline showValues (limit + (t.preorder e.1).length) (e :: waiting) =
            .ok ((t.captions showValues e.1).indented e.2 ++ entries) := by
      intro e he
      obtain ⟨c, hc, rfl⟩ := List.mem_map.mp he
      exact ih c hc (h.child_lt hc) (depth + 1)
    have hbelow := run_stack each hw
    rw [List.flatMap_map, List.flatMap_map] at hbelow
    rw [h.preorder_eq, List.length_cons, ← Nat.add_assoc, outline, getElem?_eq_nodeAt hi,
      h.captions_eq, OrderedTree.indented_node, List.flatMap_map]
    dsimp only
    rw [t.children_nodeAt]
    exact congrArg (Except.map _) hbelow

end Linked

namespace IsForest

/-- A walk from the root visits the subtree of the root. -/
theorem walk_root (h : t.IsForest) (hr : t.root = some r) : t.walk none = .ok (t.preorder r) := by
  have hwalk := h.linked.walk_eq (h.root_lt r hr)
  rw [walk, walkStart, Option.some_or] at hwalk
  rw [walk, walkStart, hr, Option.none_or]
  exact hwalk

/-- The indented text of a forest is that of the tree at its root. -/
theorem drawText_eq (h : t.IsForest) (hr : t.root = some r) (showValues : Bool) :
    t.drawText showValues = .ok (Text.lines ((t.captions showValues r).indented 0)) := by
  have hlt := h.root_lt r hr
  obtain ⟨spare, hlimit⟩ := h.linked.exists_spare hlt
  have hnone : t.outline showValues spare [] = .ok [] := by rw [outline]
  have houtline := h.linked.outline_eq hlt showValues 0 hnone
  rw [List.append_nil] at houtline
  rw [drawText, hr, hlimit]
  exact congrArg (Except.map Text.lines) houtline

end IsForest

section Statements

/-- Whether a statement of a graph is about the node of a place: it names the
node first, and its attributes follow. -/
def declares (i : Nat) (s : String) : Bool :=
  ("  node" ++ toString i ++ " [").toList.isPrefixOf s.toList

/-- A statement that begins with the name of a node and goes on in some way. -/
theorem declares_iff {i j : Nat} {rest : List Char} {s : String}
    (hs : s.toList = "  node".toList ++ ((toString j).toList ++ ' ' :: rest)) :
    declares i s = true ↔ i = j ∧ rest.head? = some '[' := by
  rw [declares, List.isPrefixOf_iff_prefix, hs, String.toList_append, String.toList_append,
    List.append_assoc, List.prefix_append_right_inj]
  constructor
  · rintro ⟨z, hz⟩
    rw [List.append_assoc] at hz
    obtain ⟨hij, htail⟩ := Text.toString_append_inj (by decide) (by decide) hz
    obtain ⟨-, hrest⟩ := List.cons.inj htail
    exact ⟨hij, by rw [← hrest]; rfl⟩
  · rintro ⟨rfl, hrest⟩
    obtain ⟨z, rfl⟩ := List.head?_eq_some_iff.mp hrest
    exact ⟨z, List.append_assoc _ _ _⟩

/-- The attributes of a node that is drawn as a box. -/
def boxAttributes : String :=
  "shape=box, style=filled, fillcolor=\"#e3f2fd\", fontname=\"Courier New\"];"

/-- The attributes of a node that is drawn as an ellipse. -/
def ellipseAttributes : String := "shape=ellipse, style=filled, fillcolor=\"#e8f5e8\"];"

/-- Whether a statement gives a box. -/
def boxed (s : String) : Bool := boxAttributes.toList.isSuffixOf s.toList

/-- The statement of a node declares this node. -/
theorem declares_nodeStatement (showValues : Bool) (i j : Nat) (n : ParseNode) :
    declares i (nodeStatement showValues j n) = decide (i = j) := by
  have hs : (nodeStatement showValues j n).toList = "  node".toList ++ ((toString j).toList ++
      ' ' :: '[' :: ("label=\"".toList ++ ((Text.escapeDot (n.caption showValues)).toList ++
        ("\", ".toList ++ (if n.isLeaf then boxAttributes else ellipseAttributes).toList)))) := by
    simp only [nodeStatement, String.toList_append, List.append_assoc]
    rfl
  rw [Bool.eq_iff_iff, declares_iff hs, decide_eq_true_iff]
  exact and_iff_left rfl

/-- The statement of an edge declares no node. -/
theorem declares_edgeStatement (i j c : Nat) : declares i (edgeStatement j c) = false := by
  have hs : (edgeStatement j c).toList = "  node".toList ++ ((toString j).toList ++
      ' ' :: '-' :: ("> node".toList ++ ((toString c).toList ++ ";".toList))) := by
    simp only [edgeStatement, String.toList_append, List.append_assoc]
    rfl
  rw [← Bool.not_eq_true, declares_iff hs]
  exact fun h => nomatch h.2

/-- The statement of an edge tells its two ends. -/
theorem edgeStatement_inj {p q c d : Nat} (h : edgeStatement p c = edgeStatement q d) :
    p = q ∧ c = d := by
  have hs : ∀ p c, (edgeStatement p c).toList = "  node".toList ++ ((toString p).toList ++
      ' ' :: ("-> node".toList ++ ((toString c).toList ++ ";".toList))) := fun p c => by
    simp only [edgeStatement, String.toList_append, List.append_assoc]
    rfl
  have hlist := congrArg String.toList h
  rw [hs, hs, List.append_cancel_left_eq] at hlist
  obtain ⟨rfl, htail⟩ := Text.toString_append_inj (by decide) (by decide) hlist
  have hcd := List.append_cancel_left (List.cons.inj htail).2
  exact ⟨rfl, (Text.toString_append_inj (by decide) (by decide) hcd).1⟩

/-- Boxes are for leaves. -/
theorem boxed_nodeStatement (showValues : Bool) (i : Nat) (n : ParseNode) :
    boxed (nodeStatement showValues i n) = n.isLeaf := by
  rw [boxed, Bool.eq_iff_iff, List.isSuffixOf_iff_suffix, nodeStatement]
  cases n.isLeaf with
  | true =>
    simp only [String.toList_append, if_true, iff_true]
    exact List.suffix_append _ _
  | false =>
    simp only [String.toList_append]
    refine ⟨fun h => ?_, fun h => nomatch h⟩
    have hends := List.suffix_of_suffix_length_le (List.suffix_append _ _) h
      (by decide : ellipseAttributes.toList.length ≤ boxAttributes.toList.length)
    exact absurd hends (by decide)

/-- The statement of a node stays on its line, whatever its caption is. -/
theorem newline_notMem_nodeStatement (showValues : Bool) (i : Nat) (n : ParseNode) :
    '\n' ∉ (nodeStatement showValues i n).toList := by
  have hlabel := Text.newline_notMem_escapeDot (n.caption showValues)
  have hplace := Text.notMem_toDigits (by decide : '\n'.isDigit = false) i
  rw [nodeStatement]
  cases n.isLeaf <;> simp [hlabel, hplace]

/-- So does the statement of an edge. -/
theorem newline_notMem_edgeStatement (i c : Nat) : '\n' ∉ (edgeStatement i c).toList := by
  have hplace := Text.notMem_toDigits (by decide : '\n'.isDigit = false) i
  have hchild := Text.notMem_toDigits (by decide : '\n'.isDigit = false) c
  simp [edgeStatement, hplace, hchild]

/-- A test that is passed a number of times by what one place contributes, and
never by what the others do. -/
theorem countP_flatMap_of_nodup {α : Type} {l : List Nat} (hl : l.Nodup) {f : Nat → List α}
    {q : α → Bool} {k : Nat} (hf : ∀ j ∈ l, (f j).countP q = if i = j then k else 0) :
    (l.flatMap f).countP q = if i ∈ l then k else 0 := by
  induction l with
  | nil => rfl
  | cons j rest ih =>
    obtain ⟨hj, hrest⟩ := List.nodup_cons.mp hl
    rw [List.flatMap_cons, List.countP_append, hf j List.mem_cons_self,
      ih hrest fun d hd => hf d (List.mem_cons_of_mem _ hd)]
    by_cases hij : i = j
    · subst hij
      rw [if_pos rfl, if_neg hj, if_pos List.mem_cons_self]
      rfl
    · rw [if_neg hij, Nat.zero_add]
      exact if_congr (by simp [hij]) rfl rfl

end Statements

/-- The first lines of a graph. -/
def graphPreamble (title : String) : List String :=
  [graphHead title, "  rankdir=TB;", "  node [fontname=\"Arial\", fontsize=12];",
    "  edge [color=\"#333333\"];"]

/-- The statements about some places: for each of them one for its node and one
for each of its children. -/
def graphStatements (t : ParseTree) (showValues : Bool) (places : List Nat) : List String :=
  places.flatMap fun i =>
    nodeStatement showValues i (t.nodeAt i) :: (t.childrenAt i).map (edgeStatement i)

/-- Each place that is listed is declared once, and no other place. -/
theorem countP_declares (t : ParseTree) (showValues : Bool) {places : List Nat}
    (hplaces : places.Nodup) (i : Nat) :
    (t.graphStatements showValues places).countP (declares i) = if i ∈ places then 1 else 0 := by
  refine countP_flatMap_of_nodup hplaces fun j _ => ?_
  have hedges : ((t.childrenAt j).map (edgeStatement j)).countP (declares i) = 0 := by
    refine List.countP_eq_zero.mpr fun s hs => ?_
    obtain ⟨c, -, rfl⟩ := List.mem_map.mp hs
    rw [declares_edgeStatement]
    exact Bool.false_ne_true
  rw [List.countP_cons, hedges, declares_nodeStatement, Nat.zero_add]
  exact if_congr decide_eq_true_iff rfl rfl

/-- Each link below a place that is listed is drawn once, and no other pair of
places. -/
theorem Linked.count_edgeStatement (h : t.Linked) (showValues : Bool) {places : List Nat}
    (hplaces : places.Nodup) (p c : Nat) :
    (t.graphStatements showValues places).count (edgeStatement p c) =
      if p ∈ places ∧ t.parentAt c = some p then 1 else 0 := by
  have hcount : ∀ j ∈ places, (nodeStatement showValues j (t.nodeAt j) ::
      (t.childrenAt j).map (edgeStatement j)).countP (· == edgeStatement p c) =
        if p = j then (t.childrenAt p).count c else 0 := by
    intro j _
    have hnode : (nodeStatement showValues j (t.nodeAt j) == edgeStatement p c) = false := by
      refine beq_eq_false_iff_ne.mpr fun e => ?_
      have hdeclares := declares_nodeStatement showValues j j (t.nodeAt j)
      rw [e, declares_edgeStatement] at hdeclares
      simp at hdeclares
    rw [List.countP_cons_of_neg (by rw [hnode]; exact Bool.false_ne_true)]
    by_cases hpj : p = j
    · subst hpj
      rw [if_pos rfl]
      exact List.count_map_of_injective _ _ (fun c d e => (edgeStatement_inj e).2) c
    · rw [if_neg hpj]
      refine List.countP_eq_zero.mpr fun s hs => ?_
      obtain ⟨d, -, rfl⟩ := List.mem_map.mp hs
      exact fun e => hpj (edgeStatement_inj (beq_iff_eq.mp e)).1.symm
  rw [List.count, graphStatements, countP_flatMap_of_nodup hplaces hcount, (h.nodup p).count,
    ite_and]
  exact if_congr Iff.rfl (if_congr (h.mem_childrenAt_iff p c) rfl rfl) rfl

/-- There is nothing else among the statements. -/
theorem Linked.mem_graphStatements (h : t.Linked) {showValues : Bool} {places : List Nat}
    {s : String} (hs : s ∈ t.graphStatements showValues places) :
    (∃ i ∈ places, s = nodeStatement showValues i (t.nodeAt i)) ∨
      ∃ p ∈ places, ∃ c, t.parentAt c = some p ∧ s = edgeStatement p c := by
  obtain ⟨i, hi, hs⟩ := List.mem_flatMap.mp hs
  rcases List.mem_cons.mp hs with hs | hs
  · exact .inl ⟨i, hi, hs⟩
  · obtain ⟨c, hc, rfl⟩ := List.mem_map.mp hs
    exact .inr ⟨i, hi, c, (h.mem_childrenAt_iff i c).mp hc, rfl⟩

/-- The graph of a forest is drawn from the statements about the subtree of the
root. -/
theorem IsForest.drawGraph_eq (h : t.IsForest) (hr : t.root = some r) (showValues : Bool)
    (title : String) : t.drawGraph showValues title = .ok (Text.lines (graphPreamble title ++
      t.graphStatements showValues (t.preorder r) ++ ["\x7d"])) := by
  have hstatements : (t.preorder r).mapM (t.nodeStatements showValues) =
      .ok ((t.preorder r).map fun i =>
        nodeStatement showValues i (t.nodeAt i) :: (t.childrenAt i).map (edgeStatement i)) := by
    refine mapM_eq_ok fun i hi => ?_
    rw [nodeStatements, node_eq_ok (h.linked.lt_size_of_mem_preorder (h.root_lt r hr) hi),
      ← children_nodeAt]
    rfl
  rw [drawGraph, hr, h.walk_root hr]
  dsimp only [bind, Except.bind]
  rw [hstatements, graphStatements, List.flatMap_def]
  rfl

/-- How the drawings of an arena show the tree at a place, where a walk visits
the given places. -/
structure ShownFrom (t : ParseTree) (r : Nat) (places : List Nat) : Prop where
  /-- The captions form a tree by recursion on the children. -/
  captions : ∀ showValues i, t.captions showValues i =
    .node ((t.nodeAt i).caption showValues) ((t.childrenAt i).map (t.captions showValues))
  /-- The text is the recursive indented rendering of this tree. -/
  text : ∀ showValues,
    t.drawText showValues = .ok (Text.lines ((t.captions showValues r).indented 0))
  /-- That is an entry for each place in the order of the walk, indented by two
  spaces for each step from the root. -/
  entries : ∃ levels : List (Nat × Nat), levels.map Prod.fst = places ∧
    (∀ e ∈ levels, t.ancestor e.2 e.1 = some r) ∧
    ∀ showValues, (t.captions showValues r).indented 0 =
      levels.map fun e => Text.spaces (2 * e.2) ++ (t.nodeAt e.1).caption showValues
  /-- The graph consists of statements on lines of their own. -/
  graph : ∀ showValues title, t.drawGraph showValues title = .ok (Text.lines
    (graphPreamble title ++ t.graphStatements showValues places ++ ["\x7d"]))
  /-- No statement breaks its line. -/
  unbroken : ∀ showValues, ∀ s ∈ t.graphStatements showValues places, '\n' ∉ s.toList
  /-- There is one statement that declares a node under the number of its
  place for each place of the walk, and none for another place. -/
  declared : ∀ showValues i, (t.graphStatements showValues places).countP (declares i) =
    if i ∈ places then 1 else 0
  /-- There is one statement for each link from a place of the walk to a child,
  and none for another pair of places. -/
  linked : ∀ showValues p c, (t.graphStatements showValues places).count (edgeStatement p c) =
    if p ∈ places ∧ t.parentAt c = some p then 1 else 0
  /-- There are no other statements. -/
  onlyThese : ∀ showValues, ∀ s ∈ t.graphStatements showValues places,
    (∃ i ∈ places, s = nodeStatement showValues i (t.nodeAt i)) ∨
      ∃ p ∈ places, ∃ c, t.parentAt c = some p ∧ s = edgeStatement p c
  /-- The leaves of the tree are the nodes that the statements give boxes. -/
  boxes : ∀ showValues, t.leaves none = .ok ((places.filter fun i =>
    boxed (nodeStatement showValues i (t.nodeAt i))).map fun i => (t.nodeAt i).token)

/-- The drawings of a forest show the tree at its root: the text as a recursive
rendering, and the graph with a statement for each node and each link that the
walk from the root meets. -/
theorem IsForest.shownFrom (h : t.IsForest) (hr : t.root = some r) :
    ∃ places, t.walk none = .ok places ∧ places.Nodup ∧ t.ShownFrom r places := by
  have hplaces := h.linked.nodup_preorder r
  have hwalk := h.walk_root hr
  refine ⟨t.preorder r, hwalk, hplaces, ?_⟩
  exact {
    captions := h.linked.captions_eq
    text := h.drawText_eq hr
    entries := by
      refine ⟨(t.subtree r).levels 0, OrderedTree.map_fst_levels _ 0, fun e he => ?_, fun v => ?_⟩
      · obtain ⟨n, hn, hup⟩ := h.linked.ancestor_of_mem_levels he
        rw [hn, Nat.zero_add]
        exact hup
      · exact OrderedTree.indented_map _ _ 0
    graph := h.drawGraph_eq hr
    unbroken := by
      intro showValues s hs
      rcases h.linked.mem_graphStatements hs with ⟨i, -, rfl⟩ | ⟨p, -, c, -, rfl⟩
      · exact newline_notMem_nodeStatement showValues i _
      · exact newline_notMem_edgeStatement p c
    declared := fun showValues i => t.countP_declares showValues hplaces i
    linked := fun showValues p c => h.linked.count_edgeStatement showValues hplaces p c
    onlyThese := fun _ _ hs => h.linked.mem_graphStatements hs
    boxes := by
      intro showValues
      simp only [boxed_nodeStatement]
      rw [leaves_of_walk hwalk fun i hi => h.linked.lt_size_of_mem_preorder (h.root_lt r hr) hi,
        leafTokens, List.filter_map, List.map_map]
      rfl }

/-- The tree of `[ x ]` as text, and the statements of its graph: the token that
belongs to no tree is not drawn. -/
theorem shownFrom_bracketedTree : bracketedTree.IsForest ∧ bracketedTree.root = some 0 ∧
    (∃ places, bracketedTree.walk none = .ok places ∧ places.Nodup ∧
      bracketedTree.ShownFrom 0 places) ∧
    bracketedTree.drawText true = .ok "S\n  [\n  S\n    x\n  ]" ∧
    bracketedTree.drawText false = .ok "S\n  open\n  S\n    name\n  close" := by
  have hforest := bracketedTree_isForest
  exact ⟨hforest, rfl, hforest.shownFrom rfl, by decide, by decide⟩

end ParseTree

end PredictiveParsing
