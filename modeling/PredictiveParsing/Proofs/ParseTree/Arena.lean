import PredictiveParsing.ParseTree.Walk

/-!
# Trees that grow in an arena

A descent adds one node after the other and makes each the last child of a
node that is there. What a further node changes in the arena is itself and
the children of its parent. Questions that go through a list of places
succeed where every place is in the arena.
-/

namespace PredictiveParsing.ParseTree

/-- Trees with the same nodes and the same root are equal. -/
theorem eq_of_nodes {t u : ParseTree} (hnodes : t.nodes = u.nodes) (hroot : t.root = u.root) :
    t = u := by
  cases t
  cases u
  exact congr (congrArg ParseTree.mk hnodes) hroot

/-- The tree with a further node, which becomes the last child of a node. -/
def grow (t : ParseTree) (parent : Nat) (label : Symbol) (token : Option Token) : ParseTree :=
  (t.addNode label token).1.link parent t.size

/-- The terminals that have been matched, in the order of their nodes. -/
def matched (t : ParseTree) : List Symbol :=
  t.nodes.toList.filterMap fun n => n.token.map fun _ => n.label

/-- A change of nodes does not show where it is not looked for. -/
theorem filterMap_modify {α β : Type} {f : α → α} {g : α → Option β} (h : ∀ a, g (f a) = g a)
    (l : List α) (i : Nat) : (l.modify i f).filterMap g = l.filterMap g := by
  induction l generalizing i with
  | nil => cases i <;> rfl
  | cons a rest ih =>
    cases i with
    | zero => rw [List.modify_zero_cons, List.filterMap_cons, List.filterMap_cons, h]
    | succ i => rw [List.modify_succ_cons, List.filterMap_cons, List.filterMap_cons, ih]

/-- A change of all members of an array can be made before or after the change of
one of them, if it can for a single member. -/
theorem map_modify {α : Type} {all one : α → α} (h : ∀ a, one (all a) = all (one a))
    (nodes : Array α) (i : Nat) : (nodes.modify i one).map all = (nodes.map all).modify i one := by
  refine Array.ext_getElem? fun j => ?_
  simp only [Array.getElem?_map, Array.getElem?_modify]
  cases nodes[j]? with
  | none => split <;> rfl
  | some n =>
    split
    · exact congrArg some (h n).symm
    · rfl

/-- A further node counts as matched if it has a token. -/
theorem matched_grow (t : ParseTree) (parent : Nat) (label : Symbol) (token : Option Token) :
    (t.grow parent label token).matched = t.matched ++ (token.map fun _ => label).toList := by
  have kept : ∀ (u : ParseTree) (i : Nat) (f : ParseNode → ParseNode),
      (∀ n, (f n).label = n.label ∧ (f n).token = n.token) →
        (u.update i f).matched = u.matched := by
    intro u i f hf
    rw [matched, update, Array.toList_modify]
    exact filterMap_modify (fun n => by rw [(hf n).1, (hf n).2]) _ i
  rw [grow, link, kept, kept]
  · rw [matched, addNode, Array.toList_push, List.filterMap_append, matched]
    cases token <;> rfl
  · exact fun n => ⟨rfl, rfl⟩
  · exact fun n => ⟨rfl, rfl⟩

/-- A node without a token is not matched. -/
theorem matched_grow_none (t : ParseTree) (parent : Nat) (label : Symbol) :
    (t.grow parent label none).matched = t.matched := by
  rw [matched_grow, Option.map_none, Option.toList_none, List.append_nil]

/-- A node with a token is matched last. -/
theorem matched_grow_some (t : ParseTree) (parent : Nat) (label : Symbol) (token : Token) :
    (t.grow parent label (some token)).matched = t.matched ++ [label] := by
  rw [matched_grow, Option.map_some, Option.toList_some]

/-- There is one node more. -/
theorem size_grow (t : ParseTree) (parent : Nat) (label : Symbol) (token : Option Token) :
    (t.grow parent label token).size = t.size + 1 := by
  rw [size, grow, link, update, update, Array.size_modify, Array.size_modify, addNode,
    Array.size_push, size]

/-- The node that is added. -/
theorem nodes_grow_size {t : ParseTree} {parent : Nat} (h : parent < t.size) (label : Symbol)
    (token : Option Token) :
    (t.grow parent label token).nodes[t.size]? = some ⟨label, token, [], some parent⟩ := by
  have hne : parent ≠ t.size := by omega
  rw [grow, link, update, update, Array.getElem?_modify, if_neg hne, Array.getElem?_modify,
    if_pos rfl, addNode, size, Array.getElem?_push_size, Option.map_some]

/-- The parent gets a further child. -/
theorem nodes_grow_parent {t : ParseTree} {parent : Nat} (h : parent < t.size) (label : Symbol)
    (token : Option Token) {n : ParseNode} (hn : t.nodes[parent]? = some n) :
    (t.grow parent label token).nodes[parent]? =
      some { n with children := n.children ++ [t.size] } := by
  have hne : t.size ≠ parent := by omega
  have hlt : parent < t.nodes.size := h
  rw [grow, link, update, update, Array.getElem?_modify, if_pos rfl, Array.getElem?_modify,
    if_neg hne, addNode, Array.getElem?_push_lt hlt, ← Array.getElem?_eq_getElem hlt, hn,
    Option.map_some]

/-- Nothing else changes. -/
theorem nodes_grow_of_ne {t : ParseTree} {parent i : Nat} (h : i < t.size) (hne : i ≠ parent)
    (label : Symbol) (token : Option Token) :
    (t.grow parent label token).nodes[i]? = t.nodes[i]? := by
  have hsize : t.size ≠ i := by omega
  have hlt : i < t.nodes.size := h
  rw [grow, link, update, update, Array.getElem?_modify, if_neg hne.symm, Array.getElem?_modify,
    if_neg hsize, addNode, Array.getElem?_push_lt hlt, ← Array.getElem?_eq_getElem hlt]

/-- A test that always has an answer selects by these answers. -/
theorem filterM_eq_ok {ε α : Type} {f : α → Except ε Bool} {g : α → Bool} {l : List α}
    (h : ∀ a ∈ l, f a = .ok (g a)) : l.filterM f = .ok (l.filter g) := by
  have aux : ∀ (l acc : List α), (∀ a ∈ l, f a = .ok (g a)) →
      List.filterAuxM f l acc = .ok ((l.filter g).reverse ++ acc) := by
    intro l
    induction l with
    | nil => exact fun acc _ => rfl
    | cons a rest ih =>
      intro acc hl
      have hrest := ih (cond (g a) (a :: acc) acc) fun b hb => hl b (List.mem_cons_of_mem _ hb)
      rw [List.filterAuxM, hl a List.mem_cons_self]
      refine Eq.trans hrest ?_
      cases hg : g a with
      | true =>
        rw [List.filter_cons_of_pos hg, List.reverse_cons, List.append_assoc]
        rfl
      | false =>
        rw [List.filter_cons_of_neg (by rw [hg]; exact Bool.false_ne_true)]
        rfl
  rw [List.filterM, aux l [] h, List.append_nil]
  exact congrArg Except.ok (List.reverse_reverse _)

/-- A question that always has an answer is answered for a list. -/
theorem mapM_eq_ok {ε α β : Type} {f : α → Except ε β} {g : α → β} {l : List α}
    (h : ∀ a ∈ l, f a = .ok (g a)) : l.mapM f = .ok (l.map g) := by
  induction l with
  | nil => rfl
  | cons a rest ih =>
    rw [List.mapM_cons, h a List.mem_cons_self,
      ih fun b hb => h b (List.mem_cons_of_mem _ hb)]
    rfl

/-- The node at a place; outside the arena a node without links. -/
def nodeAt (t : ParseTree) (i : Nat) : ParseNode := t.nodes.getD i default

/-- A place of the arena has a node. -/
theorem getElem?_eq_nodeAt {t : ParseTree} {i : Nat} (h : i < t.size) :
    t.nodes[i]? = some (t.nodeAt i) := by
  have hlt : i < t.nodes.size := h
  rw [nodeAt, Array.getD_eq_getD_getElem?, Array.getElem?_eq_getElem hlt, Option.getD_some]

/-- A place of the arena can be asked for its node. -/
theorem node_eq_ok {t : ParseTree} {i : Nat} (h : i < t.size) : t.node i = .ok (t.nodeAt i) := by
  rw [node, getElem?_eq_nodeAt h]

/-- The nodes of the arena in their order. -/
theorem map_nodeAt_range (t : ParseTree) : (List.range t.size).map t.nodeAt = t.nodes.toList := by
  refine List.ext_getElem ?_ fun i hi hi' => ?_
  · rw [List.length_map, List.length_range, Array.length_toList, size]
  · rw [List.length_map, List.length_range] at hi
    have hlt : i < t.nodes.size := hi
    rw [List.getElem_map, List.getElem_range, Array.getElem_toList]
    exact Option.some.inj ((getElem?_eq_nodeAt hi).symm.trans (Array.getElem?_eq_getElem hlt))

/-- The tokens of the leaves among some nodes. -/
def leafTokens (nodes : List ParseNode) : List (Option Token) :=
  (nodes.filter ParseNode.isLeaf).map ParseNode.token

/-- The leaves among the places that a walk visits are found in the order of
the walk. -/
theorem leaves_of_walk {t : ParseTree} {start : Option Nat} {places : List Nat}
    (hwalk : t.walk start = .ok places) (hplaces : ∀ i ∈ places, i < t.size) :
    t.leaves start = .ok (leafTokens (places.map t.nodeAt)) := by
  have hleaves : places.filterM t.isLeaf =
      .ok (places.filter (ParseNode.isLeaf ∘ t.nodeAt)) := by
    refine filterM_eq_ok fun i hi => ?_
    rw [isLeaf, node_eq_ok (hplaces i hi)]
    rfl
  have htokens : (places.filter (ParseNode.isLeaf ∘ t.nodeAt)).mapM t.token =
      .ok ((places.filter (ParseNode.isLeaf ∘ t.nodeAt)).map (ParseNode.token ∘ t.nodeAt)) := by
    refine mapM_eq_ok fun i hi => ?_
    rw [token, node_eq_ok (hplaces i (List.mem_filter.mp hi).1)]
    rfl
  rw [leaves, hwalk, leafTokens, List.filter_map, List.map_map]
  dsimp only [bind, Except.bind]
  rw [hleaves]
  exact htokens

/-- A walk that visits the nodes of the arena in their order finds the leaves
in their order. -/
theorem leaves_eq_ok {t : ParseTree} (h : t.walk none = .ok (List.range t.size)) :
    t.leaves none = .ok (leafTokens t.nodes.toList) := by
  rw [leaves_of_walk h fun i hi => List.mem_range.mp hi, map_nodeAt_range]

end PredictiveParsing.ParseTree
