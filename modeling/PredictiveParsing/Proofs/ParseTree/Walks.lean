import PredictiveParsing.Proofs.ParseTree.Arena
import PredictiveParsing.Proofs.ParseTree.Edits
import PredictiveParsing.Proofs.ParseTree.Subtrees

/-!
# Walks through edited forests

A walk with a stack visits the places of a subtree in the order of the
recursion on the subtree, and the limit of visits is not reached. So what an
edit does to walks is a question about pre-orders: they are compared place by
place, from the leaves up, with the children that the edit leaves to a place.
To splice a node takes this node from the walks that met it, and to cut it off
takes away the walk through its subtree in one piece; walks from other places
stay as they were.
-/

namespace PredictiveParsing.ParseTree

variable {t : ParseTree} {i j p r : Nat}

/-- The children of a node are those recorded at its place. -/
theorem children_nodeAt (t : ParseTree) (i : Nat) : (t.nodeAt i).children = t.childrenAt i := by
  rw [nodeAt, Array.getD_eq_getD_getElem?, childrenAt]
  cases t.nodes[i]? <;> rfl

/-- What replaces a place in a list that names it once. -/
theorem flatMap_replaceFirst {l others : List Nat} (hl : l.Nodup) (f : Nat → List Nat) :
    (replaceFirst i others l).flatMap f =
      l.flatMap fun j => if j = i then others.flatMap f else f j := by
  induction l with
  | nil => rfl
  | cons j rest ih =>
    obtain ⟨hj, hrest⟩ := List.nodup_cons.mp hl
    rw [replaceFirst, List.flatMap_cons]
    split
    · next e =>
      rw [List.flatMap_append]
      refine congrArg _ (List.flatMap_congr fun c hc => ?_)
      rw [if_neg fun hci : c = i => hj (e.trans hci.symm ▸ hc)]
    · rw [List.flatMap_cons, ih hrest]

/-- What is on top of a stack is dealt with one after the other, where each item
takes as many steps as there are places that it leads to, and yields a part of
the result. -/
theorem run_stack {α β ε : Type} {run : Nat → List α → Except ε (List β)} {places : α → List Nat}
    {part : α → List β} {items waiting : List α} {limit : Nat} {seen : List β}
    (each : ∀ a ∈ items, ∀ {limit : Nat} {waiting : List α} {seen : List β},
      run limit waiting = .ok seen →
      run (limit + (places a).length) (a :: waiting) = .ok (part a ++ seen))
    (hw : run limit waiting = .ok seen) :
    run (limit + (items.flatMap places).length) (items ++ waiting) =
      .ok (items.flatMap part ++ seen) := by
  induction items with
  | nil => exact hw
  | cons a rest ih =>
    have hrest := ih fun b hb => each b (List.mem_cons_of_mem _ hb)
    rw [List.flatMap_cons, List.length_append, Nat.add_comm (places a).length, ← Nat.add_assoc,
      List.flatMap_cons, List.append_assoc]
    exact each a List.mem_cons_self hrest

namespace Linked

/-- A subtree on top of the stack is visited in pre-order, and then what waits
below it. -/
theorem visit_eq (h : t.Linked) (hi : i < t.size) {limit : Nat} {waiting seen : List Nat}
    (hw : t.visit limit waiting = .ok seen) :
    t.visit (limit + (t.preorder i).length) (i :: waiting) = .ok (t.preorder i ++ seen) := by
  induction i using h.induction generalizing limit waiting seen with
  | step i ih =>
    have hbelow := run_stack (fun c hc => ih c hc (h.child_lt hc)) hw
    rw [h.preorder_eq, List.length_cons, ← Nat.add_assoc, visit, getElem?_eq_nodeAt hi]
    dsimp only
    rw [t.children_nodeAt, hbelow]
    rfl

/-- The limit of visits leaves room for a subtree. -/
theorem exists_spare (h : t.Linked) (hr : r < t.size) :
    ∃ spare, t.visitLimit + 1 = spare + (t.preorder r).length := by
  have hle := h.length_preorder_le hr
  refine ⟨t.visitLimit + 1 - (t.preorder r).length, ?_⟩
  rw [visitLimit]
  omega

/-- A walk from a place of the arena ends and visits its subtree in
pre-order. -/
theorem walk_eq (h : t.Linked) (hr : r < t.size) : t.walk (some r) = .ok (t.preorder r) := by
  obtain ⟨spare, hlimit⟩ := h.exists_spare hr
  have hnone : t.visit spare [] = .ok [] := by rw [visit]
  have hvisit := h.visit_eq hr hnone
  rw [List.append_nil] at hvisit
  rw [walk, hlimit]
  exact hvisit

/-- The leaves of a subtree are found in pre-order. -/
theorem leaves_eq (h : t.Linked) (hr : r < t.size) :
    t.leaves (some r) = .ok (leafTokens ((t.preorder r).map t.nodeAt)) :=
  leaves_of_walk (h.walk_eq hr) fun _ hi => h.lt_size_of_mem_preorder hr hi

/-- When a node is dissolved, the other places lose it from their
pre-orders. -/
theorem preorder_dissolved (h : t.Linked) (hp : t.parentAt i = some p) (hr : r ≠ i) :
    (t.dissolved p i).preorder r = (t.preorder r).filter (· != i) := by
  have hu := h.dissolved hp
  have hchildren := t.childrenAt_dissolved (h.parent_lt hp) i
  have hmem : i ∈ t.childrenAt p := (h.mem_childrenAt_iff p i).mpr hp
  -- at the node itself the pre-orders of its children are compared
  have hall : ∀ r, (if r = i then (t.childrenAt i).flatMap (t.dissolved p i).preorder
      else (t.dissolved p i).preorder r) = (t.preorder r).filter (· != i) := by
    intro r
    induction r using h.induction with
    | step r ih =>
      have hbelow : ((t.childrenAt r).flatMap fun c =>
          if c = i then (t.childrenAt i).flatMap (t.dissolved p i).preorder
          else (t.dissolved p i).preorder c) =
            ((t.childrenAt r).flatMap t.preorder).filter (· != i) := by
        rw [List.filter_flatMap]
        exact List.flatMap_congr ih
      have hothers : p ≠ r → (t.childrenAt r).flatMap (t.dissolved p i).preorder =
          ((t.childrenAt r).flatMap t.preorder).filter (· != i) := by
        intro hpr
        refine Eq.trans (List.flatMap_congr fun c hc => ?_) hbelow
        rw [if_neg fun e : c = i => hpr (h.parent_unique (e ▸ hmem) hc)]
      rw [h.preorder_eq]
      by_cases hri : r = i
      · subst hri
        rw [if_pos rfl, List.filter_cons_of_neg (by simp)]
        exact hothers (h.parent_ne hp)
      · rw [if_neg hri, List.filter_cons_of_pos (by simpa using hri), hu.preorder_eq, hchildren,
          if_neg (Ne.symm hri)]
        split
        · next hpr =>
          rw [flatMap_replaceFirst (h.nodup r), hbelow]
        · next hpr => rw [hothers hpr]
  exact (if_neg hr).symm.trans (hall r)

/-- When a node is cut off, the places that it is not below keep their
pre-orders, and so does the node. -/
theorem preorder_cutOff_of_not_below (h : t.Linked) (hp : t.parentAt i = some p)
    (hr : t.Below r i → r = i) : (t.cutOff p i).preorder r = t.preorder r := by
  have hmem : i ∈ t.childrenAt p := (h.mem_childrenAt_iff p i).mpr hp
  induction r using h.induction with
  | step r ih =>
    have hpr : p ≠ r := by
      rintro rfl
      exact h.parent_ne hp (hr (.child .top hmem))
    rw [(h.cutOff hp).preorder_eq, h.preorder_eq, t.childrenAt_cutOff (h.parent_lt hp), if_neg hpr]
    refine congrArg (r :: ·) (List.flatMap_congr fun c hc => ih c hc fun hb => ?_)
    have hri : r = i := hr ((Below.child .top hc).trans hb)
    exact absurd hb (h.not_below_of_mem (hri ▸ hc))

/-- The places that it is properly below lose its whole pre-order, which stood
there in one piece. -/
theorem preorder_cutOff_of_below (h : t.Linked) (hp : t.parentAt i = some p) (hb : t.Below r i)
    (hne : r ≠ i) : ∃ before after, t.preorder r = before ++ t.preorder i ++ after ∧
      (t.cutOff p i).preorder r = before ++ after := by
  have hmem : i ∈ t.childrenAt p := (h.mem_childrenAt_iff p i).mpr hp
  have hu := h.cutOff hp
  have hchildren := t.childrenAt_cutOff (h.parent_lt hp) i
  induction r using h.induction with
  | step r ih =>
    obtain ⟨c, hc, hci⟩ := hb.eq_or_exists.resolve_left (Ne.symm hne)
    obtain ⟨left, right, hsplit⟩ := List.append_of_mem hc
    have hnodup := h.nodup r
    rw [hsplit, List.nodup_middle, List.nodup_cons, List.mem_append] at hnodup
    -- the node is below no other child, whose pre-order stays
    have hothers : ∀ places : List Nat, (∀ d ∈ places, d ∈ left ∨ d ∈ right) →
        places.flatMap (t.cutOff p i).preorder = places.flatMap t.preorder := by
      intro places hplaces
      refine List.flatMap_congr fun d hd => h.preorder_cutOff_of_not_below hp fun hdi => ?_
      have hdr : d ∈ t.childrenAt r := by
        rw [hsplit, List.mem_append, List.mem_cons]
        exact (hplaces d hd).imp id .inr
      exact absurd (h.eq_of_below hdr hc hdi hci ▸ hplaces d hd) hnodup.1
    have hleft := hothers left fun d hd => .inl hd
    have hright := hothers right fun d hd => .inr hd
    rw [h.preorder_eq, hu.preorder_eq, hchildren, hsplit]
    by_cases hpr : p = r
    · -- the parent: the child is the node itself
      obtain rfl := h.eq_of_below hc (hpr ▸ hmem) hci .top
      refine ⟨r :: left.flatMap t.preorder, right.flatMap t.preorder, ?_, ?_⟩
      · rw [List.flatMap_append, List.flatMap_cons, List.cons_append, List.cons_append,
          List.append_assoc]
      · rw [if_pos hpr, List.erase_append_right _ fun hl => hnodup.1 (.inl hl),
          List.erase_cons_head, List.flatMap_append, hleft, hright, List.cons_append]
    · -- further up: the piece is inside the pre-order of the child
      have hcne : c ≠ i := by
        rintro rfl
        exact hpr (h.parent_unique hmem hc)
      obtain ⟨before, after, hpre, hcut⟩ := ih c hc hci hcne
      refine ⟨r :: left.flatMap t.preorder ++ before, after ++ right.flatMap t.preorder, ?_, ?_⟩
      · rw [List.flatMap_append, List.flatMap_cons, hpre]
        simp only [List.cons_append, List.append_assoc]
      · rw [if_neg hpr, List.flatMap_append, List.flatMap_cons, hcut, hleft, hright]
        simp only [List.cons_append, List.append_assoc]

end Linked

/-- What a change of nodes leaves alone. -/
theorem apply_nodeAt_update {α : Type} {f : ParseNode → ParseNode} {g : ParseNode → α}
    (hg : ∀ n, g (f n) = g n) (t : ParseTree) (i j : Nat) :
    g ((t.update i f).nodeAt j) = g (t.nodeAt j) := by
  rw [nodeAt, nodeAt, Array.getD_eq_getD_getElem?, Array.getD_eq_getD_getElem?, update,
    Array.getElem?_modify]
  split
  · cases t.nodes[j]? with
    | none => rfl
    | some n => exact hg n
  · rfl

/-- Adopted nodes keep what does not depend on the parent. -/
theorem apply_nodeAt_adopt {α : Type} {g : ParseNode → α}
    (hg : ∀ n parent, g { n with parent } = g n) (t : ParseTree) (parent : Nat)
    (children : List Nat) (j : Nat) : g ((t.adopt parent children).nodeAt j) = g (t.nodeAt j) := by
  induction children generalizing t with
  | nil => rfl
  | cons c rest ih => exact (ih _).trans (apply_nodeAt_update (fun n => hg n _) t c j)

/-- Where a node is dissolved, labels and tokens stay. -/
theorem apply_nodeAt_dissolved {α : Type} {g : ParseNode → α}
    (hg : ∀ n children parent, g { n with children, parent } = g n) (t : ParseTree) (p i j : Nat) :
    g ((t.dissolved p i).nodeAt j) = g (t.nodeAt j) := by
  rw [dissolved, apply_nodeAt_update fun n => hg n _ _, apply_nodeAt_adopt fun n _ => hg n _ _,
    apply_nodeAt_update fun n => hg n _ _]

namespace Linked

/-- Dissolving a node makes no leaf of its parent if that one stands for a
variable, and the other nodes are leaves or not as they were. -/
theorem isLeaf_dissolved (h : t.Linked) (hp : t.parentAt i = some p)
    (hvar : (t.nodeAt p).label.isTerminal = false) (hj : j ≠ i) :
    ((t.dissolved p i).nodeAt j).isLeaf = (t.nodeAt j).isLeaf := by
  have hlabel := apply_nodeAt_dissolved (g := ParseNode.label) (fun _ _ _ => rfl) t p i j
  rw [ParseNode.isLeaf, ParseNode.isLeaf, hlabel, children_nodeAt, children_nodeAt,
    t.childrenAt_dissolved (h.parent_lt hp), if_neg (Ne.symm hj)]
  split
  · next e => rw [← e, hvar, Bool.and_false, Bool.and_false]
  · rfl

/-- A node that is no leaf, below a variable, is dissolved without a change of
the leaves. -/
theorem leafTokens_dissolved (h : t.Linked) (hp : t.parentAt i = some p)
    (hvar : (t.nodeAt p).label.isTerminal = false) (hi : (t.nodeAt i).isLeaf = false)
    (hr : r ≠ i) :
    leafTokens (((t.dissolved p i).preorder r).map (t.dissolved p i).nodeAt) =
      leafTokens ((t.preorder r).map t.nodeAt) := by
  have hleaves : ∀ j ∈ t.preorder r,
      ((ParseNode.isLeaf ∘ (t.dissolved p i).nodeAt) j && (j != i)) =
        (ParseNode.isLeaf ∘ t.nodeAt) j := by
    intro j _
    rw [Function.comp_apply, Function.comp_apply]
    by_cases hj : j = i
    · rw [hj, hi, bne_self_eq_false, Bool.and_false]
    · rw [h.isLeaf_dissolved hp hvar hj, bne_iff_ne.mpr hj, Bool.and_true]
  have htokens : ∀ j, ((t.dissolved p i).nodeAt j).token = (t.nodeAt j).token :=
    apply_nodeAt_dissolved (fun _ _ _ => rfl) t p i
  rw [leafTokens, leafTokens, List.filter_map, List.filter_map, List.map_map, List.map_map,
    h.preorder_dissolved hp hr, List.filter_filter, List.filter_congr hleaves]
  exact List.map_congr_left fun j _ => htokens j

end Linked

/-- What is visited does not depend on the root. -/
theorem visit_setRoot (t : ParseTree) (root : Option Nat) (limit : Nat) (stack : List Nat) :
    (t.setRoot root).visit limit stack = t.visit limit stack := by
  induction limit generalizing stack with
  | zero => cases stack <;> rfl
  | succ limit ih =>
    cases stack with
    | nil => rfl
    | cons i waiting =>
      have hnodes : (t.setRoot root).nodes[i]? = t.nodes[i]? := rfl
      rw [visit, visit, hnodes]
      cases t.nodes[i]? with
      | none => rfl
      | some n =>
        dsimp only
        rw [ih]

/-- Nor does a walk from a place. -/
theorem walk_setRoot (t : ParseTree) (root : Option Nat) (r : Nat) :
    (t.setRoot root).walk (some r) = t.walk (some r) :=
  visit_setRoot t root _ _

/-- What walks through an arena visit, and what edits do to them. -/
structure WalksFollowEdits (t : ParseTree) : Prop where
  /-- A walk from a place of the arena ends. It visits the place and then the
  subtrees of the children in order, by recursion, and no place twice. -/
  walk : ∀ r < t.size, t.walk (some r) = .ok (t.subtree r).preorder ∧
    t.subtree r = .node r ((t.childrenAt r).map t.subtree) ∧ (t.subtree r).preorder.Nodup
  /-- A node with a parent can be spliced. Walks from other places lose the
  node and nothing else. -/
  splice : ∀ i p, t.parentAt i = some p → (t.splice i).fault = none ∧
    ∀ r < t.size, r ≠ i → ∃ places, t.walk (some r) = .ok places ∧
      (t.splice i).tree.walk (some r) = .ok (places.erase i)
  /-- If the node is not a leaf and stands below a variable, walks from other
  places find the same leaves. -/
  splice_leaves : ∀ i p x, t.parentAt i = some p → t.label p = .ok x → x.isNonterminal = true →
    t.isLeaf i = .ok false → ∀ r < t.size, r ≠ i → ∃ tokens,
      t.leaves (some r) = .ok tokens ∧ (t.splice i).tree.leaves (some r) = .ok tokens
  /-- A node can be cut off. Walks from places that it is properly below lose
  the walk through its subtree, which they contained in one piece. -/
  detach : ∀ i < t.size, (t.detach i).fault = none ∧
    ∀ r < t.size, t.Below r i → r ≠ i → ∃ before inner after,
      t.walk (some r) = .ok (before ++ inner ++ after) ∧ t.walk (some i) = .ok inner ∧
        (t.detach i).tree.walk (some r) = .ok (before ++ after)
  /-- The other walks, that from the node itself among them, stay as they
  were. -/
  detach_elsewhere : ∀ i < t.size, ∀ r < t.size, ¬(t.Below r i ∧ r ≠ i) →
    (t.detach i).tree.walk (some r) = t.walk (some r)

/-- Walks through an arena whose links are those of a forest follow the
recursion on subtrees, and edits change them as they should. -/
theorem Linked.walksFollowEdits (h : t.Linked) : t.WalksFollowEdits where
  walk := fun r hr => ⟨h.walk_eq hr, h.subtree_eq r, h.nodup_preorder r⟩
  splice := by
    intro i p hp
    rw [h.splice_eq hp]
    refine ⟨rfl, fun r hr hne => ⟨t.preorder r, h.walk_eq hr, ?_⟩⟩
    rw [(h.dissolved hp).walk_eq (by rwa [size_dissolved]), h.preorder_dissolved hp hne,
      (h.nodup_preorder r).erase_eq_filter]
  splice_leaves := by
    intro i p x hp hx hvar hi r hr hne
    have hlabel : (t.nodeAt p).label = x := by
      rw [label, node_eq_ok (h.parent_lt hp)] at hx
      exact Except.ok.inj hx
    have hinner : (t.nodeAt i).isLeaf = false := by
      rw [isLeaf, node_eq_ok (lt_size_of_parentAt hp)] at hi
      exact Except.ok.inj hi
    have hkind : (t.nodeAt p).label.isTerminal = false := by
      rw [hlabel]
      obtain ⟨n, rfl⟩ := Symbol.isNonterminal_iff.mp hvar
      rfl
    refine ⟨_, h.leaves_eq hr, ?_⟩
    rw [h.splice_eq hp, (h.dissolved hp).leaves_eq (by rwa [size_dissolved]),
      h.leafTokens_dissolved hp hkind hinner hne]
  detach := by
    intro i hi
    cases hp : t.parentAt i with
    | none =>
      rw [detach_eq_of_parentAt_eq_none hi hp]
      refine ⟨rfl, fun r hr hb hne => ?_⟩
      cases hb with
      | top => exact absurd rfl hne
      | child _ mem =>
        rw [h.mem_childrenAt_iff, hp] at mem
        cases mem
    | some p =>
      rw [h.detach_eq hp]
      refine ⟨rfl, fun r hr hb hne => ?_⟩
      obtain ⟨before, after, hpre, hcut⟩ := h.preorder_cutOff_of_below hp hb hne
      refine ⟨before, t.preorder i, after, ?_, h.walk_eq hi, ?_⟩
      · rw [h.walk_eq hr, hpre]
      · rw [(h.cutOff hp).walk_eq (by rwa [size_cutOff]), hcut]
  detach_elsewhere := by
    intro i hi r hr hb
    cases hp : t.parentAt i with
    | none =>
      rw [detach_eq_of_parentAt_eq_none hi hp]
      dsimp only
      split
      · exact walk_setRoot t none r
      · rfl
    | some p =>
      rw [h.detach_eq hp, (h.cutOff hp).walk_eq (by rwa [size_cutOff]), h.walk_eq hr,
        h.preorder_cutOff_of_not_below hp fun hri => by_contra fun hne => hb ⟨hri, hne⟩]

/-- In the tree of `[ x ]` the inner node is spliced without losing the leaf
below it, or cut off together with it. Walks from elsewhere do not notice. -/
theorem walksFollowEdits_bracketedTree : bracketedTree.Linked ∧ bracketedTree.WalksFollowEdits ∧
    bracketedTree.walk (some 0) = .ok [0, 1, 2, 4, 3] ∧
    (bracketedTree.splice 2).tree.walk (some 0) = .ok [0, 1, 4, 3] ∧
    (bracketedTree.splice 2).tree.leaves (some 0) = bracketedTree.leaves (some 0) ∧
    (bracketedTree.detach 2).tree.walk (some 0) = .ok [0, 1, 3] ∧
    (bracketedTree.detach 2).tree.walk (some 2) = .ok [2, 4] ∧
    (bracketedTree.detach 2).tree.walk (some 5) = .ok [5] :=
  ⟨bracketedTree_linked, bracketedTree_linked.walksFollowEdits, by decide, by decide, by decide,
    by decide, by decide, by decide⟩

end PredictiveParsing.ParseTree
