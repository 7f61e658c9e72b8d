import Mathlib.Data.Finset.Card
import Mathlib.Data.List.Nodup
import PredictiveParsing.Proofs.ParseTree.Forest

/-!
# Subtrees of an arena

Below a place of a forest hangs an ordered tree of places: the place itself,
and below it the trees of its children. What a traversal makes of an arena is
said by recursion on this tree, so that the stack of the traversal and the
links of the arena are met only once. Subtrees are reached by a recursion whose
depth is limited by the number of nodes; in a forest the limit is never felt.
The root of the arena plays no part here: all that is used is that the links
agree, that no child is listed twice and that the way up ends.
-/

namespace PredictiveParsing

/-- A tree with a label at every node and the children of a node in order. -/
inductive OrderedTree (α : Type) where
  /-- A node with the trees below it. -/
  | node (label : α) (children : List (OrderedTree α))

namespace OrderedTree

variable {α β : Type}

mutual

/-- The value of a tree, computed at each node from the label and the values
of the trees below it. -/
def fold (f : α → List β → β) : OrderedTree α → β
  | node a children => f a (foldAll f children)

/-- The values of several trees. -/
def foldAll (f : α → List β → β) : List (OrderedTree α) → List β
  | [] => []
  | b :: rest => fold f b :: foldAll f rest

end

theorem foldAll_eq_map (f : α → List β → β) (trees : List (OrderedTree α)) :
    foldAll f trees = trees.map (fold f) := by
  induction trees with
  | nil => rfl
  | cons b rest ih => rw [foldAll, ih, List.map_cons]

theorem fold_node (f : α → List β → β) (a : α) (children : List (OrderedTree α)) :
    fold f (node a children) = f a (children.map (fold f)) := by
  rw [fold, foldAll_eq_map]

/-- What holds of a node whenever it holds of the trees below it holds of
every tree. -/
@[elab_as_elim, induction_eliminator]
theorem induction {motive : OrderedTree α → Prop}
    (node : ∀ a children, (∀ b ∈ children, motive b) → motive (.node a children)) :
    ∀ b, motive b
  | .node a children => node a children fun b _ => induction node b

/-- The tree with the labels changed. -/
def map (f : α → β) : OrderedTree α → OrderedTree β := fold fun a => .node (f a)

@[simp] theorem map_node (f : α → β) (a : α) (children : List (OrderedTree α)) :
    (node a children).map f = node (f a) (children.map (map f)) :=
  fold_node _ a children

/-- The labels in pre-order: that of a node before those below it, and the
trees below a node from left to right. -/
def preorder : OrderedTree α → List α := fold fun a parts => a :: parts.flatten

@[simp] theorem preorder_node (a : α) (children : List (OrderedTree α)) :
    (node a children).preorder = a :: children.flatMap preorder :=
  fold_node _ a children

end OrderedTree

namespace ParseTree

variable {t : ParseTree} {i j p c : Nat}

/-- The tree at a place, down to a limited depth. -/
def subtreeWithin (t : ParseTree) : Nat → Nat → OrderedTree Nat
  | 0, i => .node i []
  | limit + 1, i => .node i ((t.childrenAt i).map (t.subtreeWithin limit))

/-- The tree at a place. No branch of a forest has more nodes than the
arena. -/
def subtree (t : ParseTree) (i : Nat) : OrderedTree Nat := t.subtreeWithin t.size i

/-- The places of a subtree in pre-order. -/
def preorder (t : ParseTree) (i : Nat) : List Nat := (t.subtree i).preorder

/-- What is below a place that is below another one is below that one. -/
theorem Below.trans (hij : t.Below i j) (hjc : t.Below j c) : t.Below i c := by
  induction hjc with
  | top => exact hij
  | child _ mem ih => exact ih.child mem

/-- What is below a place is the place itself or below one of its children. -/
theorem Below.eq_or_exists (h : t.Below i j) : j = i ∨ ∃ c ∈ t.childrenAt i, t.Below c j := by
  induction h with
  | top => exact .inl rfl
  | child _ mem ih =>
    rcases ih with rfl | ⟨c, hc, hb⟩
    · exact .inr ⟨_, mem, .top⟩
    · exact .inr ⟨c, hc, hb.child mem⟩

namespace Linked

/-- Ranks do not fall from a place to what is below it. -/
theorem rank_le (h : t.Linked) {rank : Nat → Nat} (hrank : t.Ranked rank) (hb : t.Below i j) :
    rank i ≤ rank j := by
  induction hb with
  | top => exact Nat.le_refl _
  | child _ mem ih => exact Nat.le_trans ih (hrank _ _ ((h.mem_childrenAt_iff _ _).mp mem)).le

/-- A place is not below its children. -/
theorem not_below_of_mem (h : t.Linked) (hc : c ∈ t.childrenAt p) : ¬t.Below c p := by
  intro hb
  obtain ⟨rank, hrank⟩ := exists_ranked h.ascends
  have hup := hrank c p ((h.mem_childrenAt_iff p c).mp hc)
  have hdown := h.rank_le hrank hb
  omega

/-- Children have one parent. -/
theorem parent_unique (h : t.Linked) {q : Nat} (hp : c ∈ t.childrenAt p)
    (hq : c ∈ t.childrenAt q) : p = q := by
  rw [h.mem_childrenAt_iff] at hp hq
  exact Option.some.inj (hp.symm.trans hq)

/-- The subtrees of different children have no place in common. -/
theorem eq_of_below (h : t.Linked) {a b : Nat} (ha : a ∈ t.childrenAt p)
    (hb : b ∈ t.childrenAt p) (haj : t.Below a j) (hbj : t.Below b j) : a = b := by
  induction haj with
  | top =>
    by_contra hne
    exact h.not_below_of_mem hb (h.below_parent hbj hne ((h.mem_childrenAt_iff p a).mp ha))
  | @child i c above mem ih =>
    by_cases hc : c = b
    · -- then the parent of the place is the common parent
      have hi := h.parent_unique mem (hc ▸ hb)
      exact absurd (hi ▸ above) (h.not_below_of_mem ha)
    · exact ih (h.below_parent hbj hc ((h.mem_childrenAt_iff i c).mp mem))

/-- Numbers up to the size of the arena that fall from a place to its
children: a place counts what is below it, and it is not below its children. -/
theorem exists_heights (h : t.Linked) : ∃ height : Nat → Nat,
    (∀ i, height i ≤ t.size) ∧ ∀ p, ∀ c ∈ t.childrenAt p, height c < height p := by
  classical
  let below (i : Nat) : Finset Nat := {j ∈ Finset.range t.size | t.Below i j}
  refine ⟨fun i => (below i).card, fun i => ?_, fun p c hc => ?_⟩
  · calc (below i).card ≤ (Finset.range t.size).card :=
          Finset.card_le_card (Finset.filter_subset _ _)
      _ = t.size := Finset.card_range _
  · refine Finset.card_lt_card ((Finset.ssubset_iff_of_subset fun j hj => ?_).mpr ⟨p, ?_, ?_⟩)
    · obtain ⟨hj, hb⟩ := Finset.mem_filter.mp hj
      exact Finset.mem_filter.mpr ⟨hj, (Below.child .top hc).trans hb⟩
    · exact Finset.mem_filter.mpr ⟨Finset.mem_range.mpr (lt_size_of_mem_childrenAt hc), .top⟩
    · exact fun hp => h.not_below_of_mem hc (Finset.mem_filter.mp hp).2

/-- What holds of a place whenever it holds of its children holds of every
place. -/
theorem induction (h : t.Linked) {motive : Nat → Prop}
    (step : ∀ i, (∀ c ∈ t.childrenAt i, motive c) → motive i) (i : Nat) : motive i := by
  obtain ⟨height, -, hfalls⟩ := h.exists_heights
  induction hn : height i using Nat.strongRecOn generalizing i with
  | ind n ih => exact step i fun c hc => ih (height c) (hn ▸ hfalls i c hc) c rfl

/-- A depth that the height of a place does not exceed reaches all that is
below it. -/
theorem subtreeWithin_eq {height : Nat → Nat}
    (hfalls : ∀ p, ∀ c ∈ t.childrenAt p, height c < height p) {m n : Nat} (hm : height i ≤ m)
    (hn : height i ≤ n) : t.subtreeWithin m i = t.subtreeWithin n i := by
  have leaf : height i ≤ 0 → t.childrenAt i = [] := fun hi =>
    List.eq_nil_iff_forall_not_mem.mpr fun c hc => by
      have := hfalls i c hc
      omega
  induction m generalizing i n with
  | zero =>
    cases n with
    | zero => rfl
    | succ n => rw [subtreeWithin, subtreeWithin, leaf hm, List.map_nil]
  | succ m ih =>
    cases n with
    | zero => rw [subtreeWithin, subtreeWithin, leaf hn, List.map_nil]
    | succ n =>
      rw [subtreeWithin, subtreeWithin]
      refine congrArg (OrderedTree.node i) (List.map_congr_left fun c hc => ?_)
      have := hfalls i c hc
      refine ih (by omega) (by omega) fun hi => ?_
      exact List.eq_nil_iff_forall_not_mem.mpr fun d hd => by
        have := hfalls c d hd
        omega

/-- A subtree is its top with the subtrees of the children below it. -/
theorem subtree_eq (h : t.Linked) (i : Nat) :
    t.subtree i = .node i ((t.childrenAt i).map t.subtree) := by
  obtain ⟨height, hle, hfalls⟩ := h.exists_heights
  have hi := hle i
  exact subtreeWithin_eq hfalls hi (Nat.le_succ_of_le hi)

/-- A pre-order is its top followed by the pre-orders of the children. -/
theorem preorder_eq (h : t.Linked) (i : Nat) :
    t.preorder i = i :: (t.childrenAt i).flatMap t.preorder := by
  rw [preorder, h.subtree_eq, OrderedTree.preorder_node, List.flatMap_map]
  rfl

/-- A pre-order lists what is below its top. -/
theorem mem_preorder_iff (h : t.Linked) : j ∈ t.preorder i ↔ t.Below i j := by
  induction i using h.induction with
  | step i ih =>
    rw [h.preorder_eq, List.mem_cons, List.mem_flatMap]
    constructor
    · rintro (rfl | ⟨c, hc, hj⟩)
      · exact .top
      · exact (Below.child .top hc).trans ((ih c hc).mp hj)
    · intro hb
      rcases hb.eq_or_exists with rfl | ⟨c, hc, hj⟩
      · exact .inl rfl
      · exact .inr ⟨c, hc, (ih c hc).mpr hj⟩

/-- A pre-order lists no place twice. -/
theorem nodup_preorder (h : t.Linked) (i : Nat) : (t.preorder i).Nodup := by
  induction i using h.induction with
  | step i ih =>
    rw [h.preorder_eq, List.nodup_cons, List.nodup_flatMap]
    refine ⟨fun hi => ?_, ih, (h.nodup i).pairwise_of_forall_ne fun a ha b hb hne j hja hjb => ?_⟩
    · obtain ⟨c, hc, hj⟩ := List.mem_flatMap.mp hi
      exact h.not_below_of_mem hc (h.mem_preorder_iff.mp hj)
    · exact hne (h.eq_of_below ha hb (h.mem_preorder_iff.mp hja) (h.mem_preorder_iff.mp hjb))

/-- A pre-order that begins in the arena stays there. -/
theorem lt_size_of_mem_preorder (h : t.Linked) (hi : i < t.size) (hj : j ∈ t.preorder i) :
    j < t.size := by
  cases h.mem_preorder_iff.mp hj with
  | top => exact hi
  | child _ mem => exact lt_size_of_parentAt ((h.mem_childrenAt_iff _ _).mp mem)

/-- So it has no more places than the arena. -/
theorem length_preorder_le (h : t.Linked) (hi : i < t.size) :
    (t.preorder i).length ≤ t.size := by
  have hsub : t.preorder i ⊆ List.range t.size := fun j hj =>
    List.mem_range.mpr (h.lt_size_of_mem_preorder hi hj)
  have hle := ((h.nodup_preorder i).subperm hsub).length_le
  rwa [List.length_range] at hle

end Linked

/-- The tree of `[ x ]`, a bracketed expression inside which there is another
one, and beside it a token that belongs to no tree. -/
def bracketedTree : ParseTree where
  nodes := #[
    ⟨.nonterminal "S", none, [1, 2, 3], none⟩,
    ⟨.terminal "open", some ⟨.named "open", .text "[", .int 1, .int 1⟩, [], some 0⟩,
    ⟨.nonterminal "S", none, [4], some 0⟩,
    ⟨.terminal "close", some ⟨.named "close", .text "]", .int 1, .int 3⟩, [], some 0⟩,
    ⟨.terminal "name", some ⟨.named "name", .text "x", .int 1, .int 2⟩, [], some 2⟩,
    ⟨.terminal "name", some ⟨.named "name", .text "y", .int 1, .int 4⟩, [], none⟩]
  root := some 0

theorem bracketedTree_linked : bracketedTree.Linked := .of_ordered (by decide) (by decide)

theorem bracketedTree_isForest : bracketedTree.IsForest :=
  bracketedTree_linked.isForest fun r hr => by
    rw [← Option.some.inj hr]
    decide

end ParseTree

end PredictiveParsing
