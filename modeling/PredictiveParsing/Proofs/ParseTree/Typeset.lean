import PredictiveParsing.Proofs.ParseTree.Drawings

/-!
# Typeset forests

For typesetting, the nodes of a tree are drawn in the reverse of the order of a
walk, and every drawing waits until its parent takes it. When a subtree has been
drawn, its drawing stands first among those that wait, and it is the bracketed
form of the tree of captions. A bracketed form tells the tree: inside the braces
a caption is typeset so that it can be read back, behind them a space announces
another child, and a square bracket the end.
-/

namespace PredictiveParsing

namespace OrderedTree

/-- The bracketed form of a tree of texts: the text of a node in a group, and
the forms of the trees below it, each behind a space. -/
def brackets : OrderedTree String → String :=
  fold fun s parts =>
    match parts with
    | [] => "[\x7b" ++ Text.escapeTypeset s ++ "\x7d]"
    | _ :: _ => "[\x7b" ++ Text.escapeTypeset s ++ "\x7d " ++ Text.join " " parts ++ "]"

/-- The form of a node is what is drawn for it. -/
theorem brackets_node (s : String) (children : List (OrderedTree String)) :
    (node s children).brackets = ParseTree.bracket s (children.map brackets) := by
  rw [brackets, fold_node, ← brackets, ← String.toList_inj]
  cases children with
  | nil => simp [ParseTree.bracket]
  | cons b rest => simp [ParseTree.bracket]

/-- Texts that are joined by spaces, with a space in front. -/
theorem space_cons_toList_join (s : String) (rest : List String) :
    ' ' :: (Text.join " " (s :: rest)).toList = (s :: rest).flatMap fun s => ' ' :: s.toList := by
  induction rest generalizing s with
  | nil => simp [Text.join]
  | cons b rest ih =>
    rw [List.flatMap_cons, ← ih b]
    simp [Text.join]

/-- The characters of a bracketed form. -/
theorem toList_brackets_node (s : String) (children : List (OrderedTree String)) :
    (node s children).brackets.toList = '[' :: '\x7b' :: (Text.typesetChars s.toList ++
      '\x7d' :: (children.flatMap (fun b => ' ' :: b.brackets.toList) ++ [']'])) := by
  rw [brackets, fold_node, ← brackets]
  cases children with
  | nil => simp [Text.escapeTypeset]
  | cons b rest =>
    have hparts := space_cons_toList_join b.brackets (rest.map brackets)
    rw [← List.map_cons, List.flatMap_map] at hparts
    rw [← hparts]
    simp [Text.escapeTypeset]

/-- Forms behind spaces, up to the closing bracket, are told one by one when
each of them is told from what is behind it. -/
theorem flatMap_brackets_append_inj {children others : List (OrderedTree String)} {x y : List Char}
    (each : ∀ b ∈ children, ∀ {d : OrderedTree String} {x y : List Char},
      b.brackets.toList ++ x = d.brackets.toList ++ y → b = d ∧ x = y)
    (h : children.flatMap (fun b => ' ' :: b.brackets.toList) ++ ']' :: x =
      others.flatMap (fun b => ' ' :: b.brackets.toList) ++ ']' :: y) :
    children = others ∧ x = y := by
  induction children generalizing others with
  | nil =>
    cases others with
    | nil => exact ⟨rfl, (List.cons.inj h).2⟩
    | cons d others => exact absurd (List.cons.inj h).1 (by decide)
  | cons b children ih =>
    cases others with
    | nil => exact absurd (List.cons.inj h).1 (by decide)
    | cons d others =>
      simp only [List.flatMap_cons, List.cons_append, List.append_assoc, List.cons.injEq,
        true_and] at h
      obtain ⟨rfl, hrest⟩ := each b List.mem_cons_self h
      obtain ⟨rfl, hxy⟩ := ih (fun b hb => each b (List.mem_cons_of_mem _ hb)) hrest
      exact ⟨rfl, hxy⟩

/-- A bracketed form tells the tree and what is behind it. -/
theorem brackets_append_inj {b d : OrderedTree String} {x y : List Char}
    (h : b.brackets.toList ++ x = d.brackets.toList ++ y) : b = d ∧ x = y := by
  induction b generalizing d x y with
  | node s children ih =>
    obtain ⟨u, others⟩ := d
    rw [toList_brackets_node, toList_brackets_node] at h
    simp only [List.cons_append, List.append_assoc, List.cons.injEq, true_and,
      List.nil_append] at h
    obtain ⟨hcaption, hbelow⟩ := Text.typesetChars_append_inj h
    obtain ⟨rfl, hxy⟩ := flatMap_brackets_append_inj ih hbelow
    exact ⟨by rw [String.toList_inj.mp hcaption], hxy⟩

end OrderedTree

namespace ParseTree

variable {t u : ParseTree} {i r s : Nat}

/-- Other nodes than the ones that wait do not have to be put aside. -/
theorem filter_ne_eq_self {drawn : Drawn} (h : ∀ e ∈ drawn, e.1 ≠ i) :
    drawn.filter (fun other => other.1 != i) = drawn :=
  List.filter_eq_self.mpr fun e he => bne_iff_ne.mpr (h e he)

/-- The first of the drawings is taken, and leaves those of other nodes. -/
theorem take_cons {drawing : String} {drawn : Drawn} (h : ∀ e ∈ drawn, e.1 ≠ i) :
    Drawn.take ((i, drawing) :: drawn) i = .ok (drawing, drawn) := by
  have hfound : List.find? (fun entry => entry.1 == i) ((i, drawing) :: drawn) =
      some (i, drawing) := List.find?_cons_of_pos (beq_self_eq_true i)
  rw [Drawn.take, hfound]
  dsimp only
  rw [List.filter_cons_of_neg (by rw [bne_self_eq_false]; exact Bool.false_ne_true),
    filter_ne_eq_self h]

/-- Drawings that stand first, in the order of the nodes, are taken in
turn. -/
theorem takeAll_append {drawings drawn : Drawn} (hn : (drawings.map Prod.fst).Nodup)
    (hd : ∀ e ∈ drawn, e.1 ∉ drawings.map Prod.fst) :
    Drawn.takeAll (drawings ++ drawn) (drawings.map Prod.fst) =
      .ok (drawings.map Prod.snd, drawn) := by
  induction drawings with
  | nil => rfl
  | cons first rest ih =>
    rw [List.map_cons, List.nodup_cons] at hn
    rw [List.map_cons] at hd
    have hothers : ∀ e ∈ rest ++ drawn, e.1 ≠ first.1 := by
      intro e he heq
      rcases List.mem_append.mp he with he | he
      · exact hn.1 (heq ▸ List.mem_map_of_mem he)
      · exact hd e he (heq ▸ List.mem_cons_self)
    have htake : Drawn.take (first :: rest ++ drawn) first.1 = .ok (first.2, rest ++ drawn) :=
      take_cons hothers
    have hrest := ih hn.2 fun e he hmem => hd e he (List.mem_cons_of_mem _ hmem)
    rw [List.map_cons, Drawn.takeAll, htake]
    dsimp only [bind, Except.bind]
    rw [hrest]
    rfl

/-- A node whose children stand first among the drawings that wait is drawn
in their place. -/
theorem drawNode_eq_ok (hi : i < t.size) (showValues : Bool) {drawings drawn : Drawn}
    (hchildren : drawings.map Prod.fst = t.childrenAt i) (hn : (t.childrenAt i).Nodup)
    (hd : ∀ e ∈ drawn, e.1 ∉ t.childrenAt i ∧ e.1 ≠ i) :
    t.drawNode showValues (drawings ++ drawn) i =
      .ok ((i, bracket ((t.nodeAt i).caption showValues) (drawings.map Prod.snd)) :: drawn) := by
  rw [← hchildren] at hn
  have htake := takeAll_append hn fun e he => hchildren ▸ (hd e he).1
  rw [drawNode, node_eq_ok hi]
  dsimp only [bind, Except.bind]
  rw [t.children_nodeAt, ← hchildren, htake]
  dsimp only
  rw [filter_ne_eq_self fun e he => (hd e he).2]
  rfl

/-- Nodes are drawn one part after the other, the second part first. -/
theorem foldlM_reverse_append {showValues : Bool} {first second : List Nat}
    {drawn middle last : Drawn}
    (hsecond : second.reverse.foldlM (t.drawNode showValues) drawn = .ok middle)
    (hfirst : first.reverse.foldlM (t.drawNode showValues) middle = .ok last) :
    (first ++ second).reverse.foldlM (t.drawNode showValues) drawn = .ok last := by
  rw [List.reverse_append, List.foldlM_append, hsecond]
  exact hfirst

/-- A single node is drawn last. -/
theorem foldlM_reverse_cons {showValues : Bool} {others : List Nat} {drawn middle last : Drawn}
    (hothers : others.reverse.foldlM (t.drawNode showValues) drawn = .ok middle)
    (hi : t.drawNode showValues middle i = .ok last) :
    (i :: others).reverse.foldlM (t.drawNode showValues) drawn = .ok last := by
  rw [List.reverse_cons, List.foldlM_append, hothers]
  dsimp only [bind, Except.bind]
  rw [List.foldlM_cons, hi]
  rfl

/-- When several parts have been drawn, each of which leaves the drawing of its
root, the drawings of the roots stand before those that waited already. -/
theorem foldlM_flatMap_eq_ok {showValues : Bool} {places : List Nat} {part : Nat → List Nat}
    {drawing : Nat → String} {drawn : Drawn} (hroots : ∀ c ∈ places, c ∈ part c)
    (each : ∀ c ∈ places, ∀ {drawn : Drawn}, (∀ e ∈ drawn, e.1 ∉ part c) →
      (part c).reverse.foldlM (t.drawNode showValues) drawn = .ok ((c, drawing c) :: drawn))
    (hn : (places.flatMap part).Nodup) (hd : ∀ e ∈ drawn, e.1 ∉ places.flatMap part) :
    (places.flatMap part).reverse.foldlM (t.drawNode showValues) drawn =
      .ok (places.map (fun c => (c, drawing c)) ++ drawn) := by
  induction places with
  | nil => rfl
  | cons c rest ih =>
    rw [List.forall_mem_cons] at hroots each
    rw [List.flatMap_cons] at hn hd
    obtain ⟨-, hnrest, hdisjoint⟩ := List.nodup_append.mp hn
    have hrest := ih hroots.2 each.2 hnrest fun e he hmem =>
      hd e he (List.mem_append_right _ hmem)
    rw [List.flatMap_cons, List.map_cons, List.cons_append]
    refine foldlM_reverse_append hrest (each.1 fun e he hmem => ?_)
    rcases List.mem_append.mp he with he | he
    · obtain ⟨d, hd, rfl⟩ := List.mem_map.mp he
      exact hdisjoint d hmem d (List.mem_flatMap.mpr ⟨d, hd, hroots.2 d hd⟩) rfl
    · exact hd e he (List.mem_append_left _ hmem)

/-- When a subtree has been drawn, its bracketed form stands before the drawings
that waited already. -/
theorem Linked.drawNodes_eq_ok (h : t.Linked) (hi : i < t.size) (showValues : Bool) {drawn : Drawn}
    (hd : ∀ e ∈ drawn, e.1 ∉ t.preorder i) :
    (t.preorder i).reverse.foldlM (t.drawNode showValues) drawn =
      .ok ((i, (t.captions showValues i).brackets) :: drawn) := by
  induction i using h.induction generalizing drawn with
  | step i ih =>
    have hroots : ∀ c ∈ t.childrenAt i, c ∈ t.preorder c := fun c _ => h.mem_preorder_iff.mpr .top
    have hn := h.nodup_preorder i
    rw [h.preorder_eq, List.nodup_cons] at hn
    rw [h.preorder_eq] at hd
    -- the children are drawn first, and their drawings wait in the order of the children
    have hchildren := foldlM_flatMap_eq_ok hroots (fun c hc => ih c hc (h.child_lt hc)) hn.2
      fun e he hmem => hd e he (List.mem_cons_of_mem _ hmem)
    have hplaces : ((t.childrenAt i).map fun c => (c, (t.captions showValues c).brackets)).map
        Prod.fst = t.childrenAt i := by
      rw [List.map_map]
      exact List.map_id _
    have hnode := drawNode_eq_ok hi showValues hplaces (h.nodup i) fun e he =>
      ⟨fun hmem => hd e he (List.mem_cons_of_mem _ (List.mem_flatMap.mpr ⟨_, hmem, hroots _ hmem⟩)),
        fun heq => hd e he (heq ▸ List.mem_cons_self)⟩
    rw [h.preorder_eq, h.captions_eq, OrderedTree.brackets_node]
    rw [List.map_map] at hnode ⊢
    exact foldlM_reverse_cons hchildren hnode

/-- A typeset forest is the bracketed form of the tree at its root. -/
theorem IsForest.drawTypeset_eq (h : t.IsForest) (hr : t.root = some r) (showValues : Bool) :
    t.drawTypeset showValues = .ok ("\\begin\x7bforest\x7d\n" ++
      (t.captions showValues r).brackets ++ "\n\\end\x7bforest\x7d") := by
  have hdrawn := h.linked.drawNodes_eq_ok (h.root_lt r hr) showValues
    fun e he => absurd he List.not_mem_nil
  rw [drawTypeset, hr, h.walk_root hr]
  dsimp only [bind, Except.bind]
  rw [hdrawn]
  dsimp only
  rw [take_cons fun e he => absurd he List.not_mem_nil]
  rfl

/-- Every drawing of a tree succeeds. -/
structure Drawable (t : ParseTree) : Prop where
  /-- As a graph. -/
  graph : ∀ showValues title, ∃ drawing, t.drawGraph showValues title = .ok drawing
  /-- As indented text. -/
  text : ∀ showValues, ∃ drawing, t.drawText showValues = .ok drawing
  /-- For typesetting. -/
  typeset : ∀ showValues, ∃ drawing, t.drawTypeset showValues = .ok drawing

/-- A forest can be drawn: without a root there is nothing that could fail. -/
theorem IsForest.drawable (h : t.IsForest) : t.Drawable := by
  cases hr : t.root with
  | none => exact {
      graph := fun _ title => ⟨drawNoGraph title, by rw [drawGraph, hr]⟩
      text := fun _ => ⟨"", by rw [drawText, hr]⟩
      typeset := fun _ => ⟨"", by rw [drawTypeset, hr]⟩ }
  | some r => exact {
      graph := fun showValues title => ⟨_, h.drawGraph_eq hr showValues title⟩
      text := fun showValues => ⟨_, h.drawText_eq hr showValues⟩
      typeset := fun showValues => ⟨_, h.drawTypeset_eq hr showValues⟩ }

/-- A typeset forest is the recursive bracketed form of the tree of captions at
its root, and it tells this tree: two forests that look the same have the same
shape and the same captions. -/
theorem IsForest.drawTypeset_tells (ht : t.IsForest) (hu : u.IsForest) (hr : t.root = some r)
    (hs : u.root = some s) (v w : Bool) :
    (∀ i, t.captions v i =
      .node ((t.nodeAt i).caption v) ((t.childrenAt i).map (t.captions v))) ∧
    t.drawTypeset v = .ok ("\\begin\x7bforest\x7d\n" ++ (t.captions v r).brackets ++
      "\n\\end\x7bforest\x7d") ∧
    (t.drawTypeset v = u.drawTypeset w ↔ t.captions v r = u.captions w s) := by
  refine ⟨ht.linked.captions_eq v, ht.drawTypeset_eq hr v, ?_⟩
  rw [ht.drawTypeset_eq hr, hu.drawTypeset_eq hs]
  constructor
  · intro h
    have hlist := congrArg String.toList (Except.ok.inj h)
    simp only [String.toList_append, List.append_assoc, List.append_cancel_left_eq] at hlist
    exact (OrderedTree.brackets_append_inj hlist).1
  · intro h
    rw [h]

/-- The tree of `[ x ]` with the values of its tokens, whose square brackets
are put into groups, and without them: two trees that do not look the same. -/
theorem drawTypeset_tells_bracketedTree :
    (bracketedTree.IsForest ∧ bracketedTree.root = some 0) ∧
    ((∀ i, bracketedTree.captions true i = .node ((bracketedTree.nodeAt i).caption true)
        ((bracketedTree.childrenAt i).map (bracketedTree.captions true))) ∧
      bracketedTree.drawTypeset true = .ok ("\\begin\x7bforest\x7d\n" ++
        (bracketedTree.captions true 0).brackets ++ "\n\\end\x7bforest\x7d") ∧
      (bracketedTree.drawTypeset true = bracketedTree.drawTypeset false ↔
        bracketedTree.captions true 0 = bracketedTree.captions false 0)) ∧
    bracketedTree.drawTypeset true = .ok ("\\begin\x7bforest\x7d\n" ++
      "[\x7bS\x7d [\x7b\x7b[\x7d\x7d] [\x7bS\x7d [\x7bx\x7d]] [\x7b\x7b]\x7d\x7d]]" ++
        "\n\\end\x7bforest\x7d") ∧
    bracketedTree.drawTypeset true ≠ bracketedTree.drawTypeset false := by
  have hforest := bracketedTree_isForest
  exact ⟨⟨hforest, rfl⟩, hforest.drawTypeset_tells hforest rfl rfl true false, by decide,
    by decide⟩

end ParseTree

end PredictiveParsing
