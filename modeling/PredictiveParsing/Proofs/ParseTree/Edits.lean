import PredictiveParsing.Proofs.ParseTree.Forest

/-!
# Runs of edits

A tree is edited step by step, beginning with the arena without nodes. Nodes
are named by places of the arena, and a node is attached only where it has no
parent and the new parent is not below it. Then the arena is a forest at all
times, and no edit fails but the splicing of a node without a parent, which
leaves the arena as it was.
-/

namespace PredictiveParsing

/-- An edit of a tree. -/
inductive TreeEdit where
  /-- A node is added to the arena. -/
  | addNode (label : Symbol) (token : Option Token)
  /-- A node becomes the last child of another one. -/
  | attach (parent child : Nat)
  /-- A node is cut off from its parent. -/
  | detach (i : Nat)
  /-- The children of a node take its place. -/
  | splice (i : Nat)
  /-- A node gets another label. -/
  | relabel (i : Nat) (label : Symbol)
  /-- The tree gets another root, or none. -/
  | setRoot (root : Option Nat)

namespace TreeEdit

/-- What an edit makes of a tree. -/
def apply (t : ParseTree) : TreeEdit → Edited
  | addNode label token => ⟨(t.addNode label token).1, none⟩
  | attach parent child => t.attach parent child
  | detach i => t.detach i
  | splice i => t.splice i
  | relabel i label => t.relabel i label
  | setRoot root => ⟨t.setRoot root, none⟩

/-- An edit names places of the arena, and attaches a node without a parent to
one that is not below it. -/
def Admissible (t : ParseTree) : TreeEdit → Prop
  | addNode _ _ => True
  | attach parent child =>
    parent < t.size ∧ child < t.size ∧ t.parentAt child = none ∧ ¬t.Below child parent
  | detach i => i < t.size
  | splice i => i < t.size
  | relabel i _ => i < t.size
  | setRoot root => ∀ r, root = some r → r < t.size

end TreeEdit

namespace ParseTree

variable {t : ParseTree} {i p : Nat}

/-- The trees that edits make of the arena without nodes. -/
inductive Built : ParseTree → Prop
  /-- There is no node yet. -/
  | empty : Built ParseTree.empty
  /-- One edit more, whether or not it fails. -/
  | edit {t : ParseTree} (built : Built t) {e : TreeEdit} (ok : e.Admissible t) :
    Built (e.apply t).tree

/-- A node of the arena. -/
theorem exists_node (hi : i < t.size) : ∃ n, t.nodes[i]? = some n ∧
    n.parent = t.parentAt i ∧ n.children = t.childrenAt i := by
  refine ⟨t.nodes[i], Array.getElem?_eq_getElem hi, ?_, ?_⟩
  · rw [parentAt, Array.getElem?_eq_getElem hi, Option.bind_some]
  · rw [childrenAt, Array.getElem?_eq_getElem hi]
    rfl

namespace Linked

/-- A node is among the children of its parent, so that cutting it off
succeeds. -/
theorem detach_eq (h : t.Linked) (hp : t.parentAt i = some p) :
    t.detach i = ⟨t.cutOff p i, none⟩ := by
  obtain ⟨n, hn, hparent, -⟩ := exists_node (lt_size_of_parentAt hp)
  obtain ⟨above, habove, -, hchildren⟩ := exists_node (h.parent_lt hp)
  have hmem : i ∈ above.children := by
    rw [hchildren]
    exact (h.mem_childrenAt_iff p i).mpr hp
  rw [hp] at hparent
  simp only [detach, hn, hparent, habove, if_pos hmem]
  rfl

/-- Nor does the splicing of a node with a parent fail. -/
theorem splice_eq (h : t.Linked) (hp : t.parentAt i = some p) :
    t.splice i = ⟨t.dissolved p i, none⟩ := by
  obtain ⟨n, hn, hparent, hbelow⟩ := exists_node (lt_size_of_parentAt hp)
  obtain ⟨above, habove, -, hchildren⟩ := exists_node (h.parent_lt hp)
  have hmem : i ∈ above.children := by
    rw [hchildren]
    exact (h.mem_childrenAt_iff p i).mpr hp
  rw [hp] at hparent
  simp only [splice, hn, hparent, habove, if_pos hmem, hbelow]
  rfl

end Linked

/-- A node without a parent is not spliced. -/
theorem splice_eq_of_parentAt_eq_none (hi : i < t.size) (hp : t.parentAt i = none) :
    t.splice i = ⟨t, some .spliceRoot⟩ := by
  obtain ⟨n, hn, hparent, -⟩ := exists_node hi
  rw [hp] at hparent
  simp only [splice, hn, hparent]

/-- A node without a parent is cut off only as the root. -/
theorem detach_eq_of_parentAt_eq_none (hi : i < t.size) (hp : t.parentAt i = none) :
    t.detach i = ⟨if t.root = some i then t.setRoot none else t, none⟩ := by
  obtain ⟨n, hn, hparent, -⟩ := exists_node hi
  rw [hp] at hparent
  simp only [detach, hn, hparent]

/-- A splicing that fails, for whichever reason, changes nothing. -/
theorem splice_eq_self_of_fault {fault : TreeFault} (h : (t.splice i).fault = some fault) :
    (t.splice i).tree = t := by
  revert h
  rw [splice]
  split
  · exact fun _ => rfl
  · split
    · exact fun _ => rfl
    · split
      · exact fun _ => rfl
      · split
        · exact fun h => nomatch h
        · exact fun _ => rfl

/-- An admissible edit of a forest leaves a forest. It succeeds, unless it is
the splicing of a node without a parent. -/
theorem IsForest.edit (h : t.IsForest) {e : TreeEdit} (ok : e.Admissible t) :
    (e.apply t).tree.IsForest ∧ ((e.apply t).fault = none ∨
      ∃ i, e = .splice i ∧ t.parentAt i = none ∧ e.apply t = ⟨t, some .spliceRoot⟩) := by
  cases e with
  | addNode label token => exact ⟨h.addNode label token, .inl rfl⟩
  | attach parent child =>
    obtain ⟨hparent, hchild, hfree, hbelow⟩ := ok
    rw [TreeEdit.apply, attach, if_pos hchild, if_pos hparent]
    exact ⟨h.link hparent hchild hfree hbelow, .inl rfl⟩
  | detach i =>
    rw [TreeEdit.apply]
    cases hp : t.parentAt i with
    | some p =>
      rw [h.linked.detach_eq hp]
      exact ⟨h.cutOff hp, .inl rfl⟩
    | none =>
      rw [detach_eq_of_parentAt_eq_none ok hp]
      refine ⟨?_, .inl rfl⟩
      split
      · exact h.setRoot fun r hr => nomatch hr
      · exact h
  | splice i =>
    rw [TreeEdit.apply]
    cases hp : t.parentAt i with
    | some p =>
      rw [h.linked.splice_eq hp]
      exact ⟨h.dissolved hp, .inl rfl⟩
    | none =>
      rw [splice_eq_of_parentAt_eq_none ok hp]
      exact ⟨h, .inr ⟨i, rfl, hp, rfl⟩⟩
  | relabel i label =>
    have hi : i < t.size := ok
    rw [TreeEdit.apply, relabel, if_pos hi]
    exact ⟨h.updateLabel label, .inl rfl⟩
  | setRoot root => exact ⟨h.setRoot ok, .inl rfl⟩

/-- Edits make forests. -/
theorem Built.isForest (h : t.Built) : t.IsForest := by
  induction h with
  | empty => exact .empty
  | edit _ ok ih => exact (ih.edit ok).1

/-- At all times the arena is a forest: its links are in range, the children of
a node are those that have it as their parent, none is listed twice, and the
way from any node to its parents ends. A splicing that fails leaves the arena
unchanged. No other admissible edit fails at all, and the splicing fails only
for a node without a parent. -/
theorem Built.keeps_forest (h : t.Built) : t.IsForest ∧
    (∀ i fault, (t.splice i).fault = some fault → (t.splice i).tree = t) ∧
    ∀ e : TreeEdit, e.Admissible t → (e.apply t).fault ≠ none →
      ∃ i, e = .splice i ∧ t.parentAt i = none ∧ e.apply t = ⟨t, some .spliceRoot⟩ :=
  ⟨h.isForest, fun _ _ hf => splice_eq_self_of_fault hf,
    fun _ ok hf => (h.isForest.edit ok).2.resolve_left hf⟩

/-- Below a node without children there is only the node. -/
theorem Below.eq_top {top : Nat} (h : t.Below top i) (hleaf : t.childrenAt top = []) : i = top := by
  induction h with
  | top => rfl
  | child _ mem ih =>
    rw [ih, hleaf] at mem
    exact absurd mem List.not_mem_nil

/-- A list of edits each of which is admissible at its turn. -/
theorem built_foldl (ht : t.Built) (edits : List TreeEdit)
    (ok : ∀ n (hn : n < edits.length),
      (edits[n]).Admissible ((edits.take n).foldl (fun t e => (e.apply t).tree) t)) :
    (edits.foldl (fun t e => (e.apply t).tree) t).Built := by
  induction edits generalizing t with
  | nil => exact ht
  | cons e rest ih =>
    refine ih (ht.edit (ok 0 (Nat.zero_lt_succ _))) fun n hn => ?_
    exact ok (n + 1) (Nat.succ_lt_succ hn)

/-- The edits of a parse of a sum, and the splicing of an inner node. -/
def sumEdits : List TreeEdit :=
  [.addNode (.nonterminal "E") none, .addNode (.nonterminal "T") none, .attach 0 1,
    .addNode (.terminal "x") none, .attach 1 2, .addNode (.terminal "+") none, .attach 0 3,
    .setRoot (some 0), .splice 1]

/-- The tree that they make. -/
def sumTree : ParseTree := sumEdits.foldl (fun t e => (e.apply t).tree) ParseTree.empty

/-- It is a forest, where the leaf has taken the place of the inner node, and
its root cannot be spliced. -/
theorem built_sumTree : sumTree.Built ∧ sumTree.IsForest ∧ sumTree.childrenAt 0 = [2, 3] ∧
    sumTree.parentAt 2 = some 0 ∧ sumTree.parentAt 1 = none ∧
    sumTree.splice 0 = ⟨sumTree, some .spliceRoot⟩ := by
  have leaf : ∀ (t : ParseTree) (parent child : Nat), parent < t.size → child < t.size →
      t.parentAt child = none → t.childrenAt child = [] → parent ≠ child →
      (TreeEdit.attach parent child).Admissible t :=
    fun t parent child hp hc hfree hleaf hne => ⟨hp, hc, hfree, fun hb => hne (hb.eq_top hleaf)⟩
  have ok : ∀ n (hn : n < sumEdits.length),
      (sumEdits[n]).Admissible
        ((sumEdits.take n).foldl (fun t e => (e.apply t).tree) ParseTree.empty) := by
    intro n hn
    match n, hn with
    | 0, _ | 1, _ | 3, _ | 5, _ => exact trivial
    | 2, _ => exact leaf _ 0 1 (by decide) (by decide) (by decide) (by decide) (by decide)
    | 4, _ => exact leaf _ 1 2 (by decide) (by decide) (by decide) (by decide) (by decide)
    | 6, _ => exact leaf _ 0 3 (by decide) (by decide) (by decide) (by decide) (by decide)
    | 7, _ =>
      intro r hr
      rw [← Option.some.inj hr]
      decide
    | 8, _ => exact (by decide : 1 < 4)
  have hbuilt : sumTree.Built := built_foldl .empty sumEdits ok
  obtain ⟨hforest, -, hfails⟩ := hbuilt.keeps_forest
  have hroot : (TreeEdit.splice 0).Admissible sumTree := (by decide : 0 < sumTree.size)
  obtain ⟨i, hi, -, hsplice⟩ := hfails (.splice 0) hroot (by decide)
  exact ⟨hbuilt, hforest, by decide, by decide, by decide, hsplice⟩

end ParseTree

end PredictiveParsing
