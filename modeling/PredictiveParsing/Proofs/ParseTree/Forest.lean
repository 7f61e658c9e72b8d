import Mathlib.Data.Nat.Find
import PredictiveParsing.ParseTree

/-!
# Edited arenas stay forests

The links of an arena are kept twice, as the children of a node and as its
parent. An arena is a forest when all links lead to nodes of the arena, the
two records agree, no node is listed twice among children, and the way from
any node to its parent, the parent of that one and so on ends. Every edit of
a forest leaves a forest, provided that a node is attached only where it has
no parent and the new parent is not below it. What each edit does is said once
for the two records; that nothing climbs in circles is carried by ranks that
fall from a child to its parent. Edits below a place are about links only, so
they are followed without asking where the root is.
-/

namespace PredictiveParsing.ParseTree

/-- The children of the node at a place; there are none outside the arena. -/
def childrenAt (t : ParseTree) (i : Nat) : List Nat :=
  (t.nodes[i]?.map ParseNode.children).getD []

/-- The parent of the node at a place; there is none outside the arena. -/
def parentAt (t : ParseTree) (i : Nat) : Option Nat := t.nodes[i]?.bind ParseNode.parent

/-- The place that is reached from another one by a number of steps to the
parent, if there are as many. -/
def ancestor (t : ParseTree) : Nat → Nat → Option Nat
  | 0, i => some i
  | n + 1, i => (t.parentAt i).bind (t.ancestor n)

/-- The places of a subtree. -/
inductive Below (t : ParseTree) (top : Nat) : Nat → Prop
  /-- Its top is one of them. -/
  | top : Below t top top
  /-- So are the children of its places. -/
  | child {i c : Nat} (above : Below t top i) (mem : c ∈ t.childrenAt i) : Below t top c

/-- The arena is a forest. -/
structure IsForest (t : ParseTree) : Prop where
  /-- Children are in the arena. -/
  child_lt : ∀ p c, c ∈ t.childrenAt p → c < t.size
  /-- Parents are in the arena. -/
  parent_lt : ∀ c p, t.parentAt c = some p → p < t.size
  /-- The root is in the arena. -/
  root_lt : ∀ r, t.root = some r → r < t.size
  /-- The two records of a link agree. -/
  mem_childrenAt_iff : ∀ p c, c ∈ t.childrenAt p ↔ t.parentAt c = some p
  /-- No child is listed twice. -/
  nodup : ∀ p, (t.childrenAt p).Nodup
  /-- The way up ends. -/
  ascends : ∀ i, ∃ n, t.ancestor n i = none

/-- The links of the arena are those of a forest, whichever place is its
root. -/
structure Linked (t : ParseTree) : Prop where
  /-- The two records of a link agree. Hence links do not leave the arena,
  since there are records of its places alone. -/
  mem_childrenAt_iff : ∀ p c, c ∈ t.childrenAt p ↔ t.parentAt c = some p
  /-- No child is listed twice. -/
  nodup : ∀ p, (t.childrenAt p).Nodup
  /-- The way up ends. -/
  ascends : ∀ i, ∃ n, t.ancestor n i = none

/-- Ranks that fall from a child to its parent. -/
def Ranked (t : ParseTree) (rank : Nat → Nat) : Prop :=
  ∀ c p, t.parentAt c = some p → rank p < rank c

section Links

variable {t : ParseTree} {i p c : Nat}

/-- Outside the arena nothing has a parent. -/
theorem lt_size_of_parentAt (h : t.parentAt c = some p) : c < t.size := by
  obtain ⟨n, hn, -⟩ := Option.bind_eq_some_iff.mp h
  exact (Array.getElem?_eq_some_iff.mp hn).1

/-- Outside the arena nothing has children. -/
theorem lt_size_of_mem_childrenAt (h : c ∈ t.childrenAt p) : p < t.size := by
  by_contra hn
  rw [childrenAt, Array.getElem?_eq_none (Nat.not_lt.mp hn)] at h
  exact List.not_mem_nil h

/-- Where ranks fall the way up ends. -/
theorem Ranked.ascends {rank : Nat → Nat} (h : t.Ranked rank) (i : Nat) :
    ∃ n, t.ancestor n i = none := by
  induction hr : rank i using Nat.strongRecOn generalizing i with
  | ind r ih =>
    cases hp : t.parentAt i with
    | none => exact ⟨1, by rw [ancestor, hp]; rfl⟩
    | some p =>
      obtain ⟨n, hn⟩ := ih (rank p) (hr ▸ h i p hp) p rfl
      exact ⟨n + 1, by rw [ancestor, hp]; exact hn⟩

/-- Where the way up ends its length is a rank. -/
theorem exists_ranked (h : ∀ i, ∃ n, t.ancestor n i = none) : ∃ rank, t.Ranked rank := by
  classical
  refine ⟨fun i => Nat.find (h i), fun c p hp => ?_⟩
  have hup : ∀ n, t.ancestor (n + 1) c = t.ancestor n p := fun n => by
    rw [ancestor, hp]
    rfl
  have hc := Nat.find_spec (h c)
  cases hn : Nat.find (h c) with
  | zero =>
    rw [hn] at hc
    cases hc
  | succ n =>
    rw [hn, hup] at hc
    have hle : Nat.find (h p) ≤ n := Nat.find_min' (h p) hc
    dsimp only
    omega

/-- What is below a child is below its parent, and a subtree is left only
through its top. -/
theorem Linked.below_parent (h : t.Linked) {top : Nat} (hb : t.Below top c) (hne : c ≠ top)
    (hp : t.parentAt c = some p) : t.Below top p := by
  cases hb with
  | top => exact absurd rfl hne
  | child above mem =>
    have hq := (h.mem_childrenAt_iff _ _).mp mem
    rw [hp] at hq
    rw [Option.some.inj hq]
    exact above

end Links

section Records

variable (t : ParseTree)

theorem childrenAt_update (i j : Nat) (f : ParseNode → ParseNode) :
    (t.update i f).childrenAt j =
      if i = j then (t.nodes[j]?.map fun n => (f n).children).getD [] else t.childrenAt j := by
  rw [childrenAt, update, Array.getElem?_modify]
  split
  · rw [Option.map_map]
    rfl
  · rfl

theorem parentAt_update (i j : Nat) (f : ParseNode → ParseNode) :
    (t.update i f).parentAt j =
      if i = j then t.nodes[j]?.bind fun n => (f n).parent else t.parentAt j := by
  rw [parentAt, update, Array.getElem?_modify]
  split
  · rw [Option.bind_map]
    rfl
  · rfl

@[simp] theorem size_update (i : Nat) (f : ParseNode → ParseNode) :
    (t.update i f).size = t.size := by
  rw [size, update, Array.size_modify, size]

/-- A node that gets a parent keeps its children, and so do the others. -/
theorem childrenAt_updateParent (i j : Nat) (parent : Option Nat) :
    (t.update i fun n => { n with parent }).childrenAt j = t.childrenAt j := by
  rw [childrenAt_update]
  split <;> rfl

/-- A node that gets children keeps its parent, and so do the others. -/
theorem parentAt_updateChildren (i j : Nat) (g : List Nat → List Nat) :
    (t.update i fun n => { n with children := g n.children }).parentAt j = t.parentAt j := by
  rw [parentAt_update]
  split <;> rfl

/-- A node of the arena gets a parent, or loses it. -/
theorem parentAt_updateParent {i : Nat} (hi : i < t.size) (j : Nat) (parent : Option Nat) :
    (t.update i fun n => { n with parent }).parentAt j =
      if i = j then parent else t.parentAt j := by
  rw [parentAt_update]
  split
  · next e => rw [← e, Array.getElem?_eq_getElem hi]; rfl
  · rfl

/-- The children of a node of the arena are changed. -/
theorem childrenAt_updateChildren {i : Nat} (hi : i < t.size) (j : Nat) (g : List Nat → List Nat) :
    (t.update i fun n => { n with children := g n.children }).childrenAt j =
      if i = j then g (t.childrenAt j) else t.childrenAt j := by
  rw [childrenAt_update]
  split
  · next e => rw [← e, childrenAt, Array.getElem?_eq_getElem hi]; rfl
  · rfl

/-- A further node has no children, and the others keep theirs. -/
theorem childrenAt_addNode (label : Symbol) (token : Option Token) (j : Nat) :
    (t.addNode label token).1.childrenAt j = t.childrenAt j := by
  rw [childrenAt, childrenAt, addNode, Array.getElem?_push]
  split
  · next e => rw [e, Array.getElem?_eq_none (Nat.le_refl _)]; rfl
  · rfl

/-- A further node has no parent, and the others keep theirs. -/
theorem parentAt_addNode (label : Symbol) (token : Option Token) (j : Nat) :
    (t.addNode label token).1.parentAt j = t.parentAt j := by
  rw [parentAt, parentAt, addNode, Array.getElem?_push]
  split
  · next e => rw [e, Array.getElem?_eq_none (Nat.le_refl _)]; rfl
  · rfl

/-- Adopted nodes keep their children. -/
theorem childrenAt_adopt (parent : Nat) (children : List Nat) (j : Nat) :
    (t.adopt parent children).childrenAt j = t.childrenAt j := by
  induction children generalizing t with
  | nil => rfl
  | cons c rest ih => exact (ih _).trans (t.childrenAt_updateParent c j _)

@[simp] theorem size_adopt (parent : Nat) (children : List Nat) :
    (t.adopt parent children).size = t.size := by
  induction children generalizing t with
  | nil => rfl
  | cons c rest ih => exact (ih _).trans (t.size_update c _)

@[simp] theorem root_adopt (parent : Nat) (children : List Nat) :
    (t.adopt parent children).root = t.root := by
  induction children generalizing t with
  | nil => rfl
  | cons c rest ih => exact ih _

/-- Adopted nodes have the parent, and the others keep theirs. -/
theorem parentAt_adopt (parent : Nat) {children : List Nat} (h : ∀ c ∈ children, c < t.size)
    (j : Nat) : (t.adopt parent children).parentAt j =
      if j ∈ children then some parent else t.parentAt j := by
  induction children generalizing t with
  | nil => rw [if_neg List.not_mem_nil]; rfl
  | cons c rest ih =>
    have hstep : t.adopt parent (c :: rest) =
        (t.update c fun n => { n with parent := some parent }).adopt parent rest := rfl
    rw [hstep, ih, t.parentAt_updateParent (h c List.mem_cons_self)]
    · by_cases hj : j ∈ rest
      · rw [if_pos hj, if_pos (List.mem_cons_of_mem _ hj)]
      · by_cases hc : c = j
        · rw [if_neg hj, if_pos hc, if_pos (List.mem_cons.mpr (.inl hc.symm))]
        · rw [if_neg hj, if_neg hc, if_neg fun hm => (List.mem_cons.mp hm).elim (hc ·.symm) hj]
    · intro d hd
      rw [size_update]
      exact h d (List.mem_cons_of_mem _ hd)

/-- The tree where a node is cut off from a parent. -/
def cutOff (p i : Nat) : ParseTree :=
  (t.update p fun m => { m with children := m.children.erase i }).update i fun m =>
    { m with parent := none }

@[simp] theorem size_cutOff (p i : Nat) : (t.cutOff p i).size = t.size := by
  rw [cutOff, size_update, size_update]

/-- The parent loses a child. -/
theorem childrenAt_cutOff {p : Nat} (hp : p < t.size) (i j : Nat) :
    (t.cutOff p i).childrenAt j = if p = j then (t.childrenAt j).erase i else t.childrenAt j := by
  rw [cutOff, childrenAt_updateParent, t.childrenAt_updateChildren hp j (·.erase i)]

/-- The node loses its parent. -/
theorem parentAt_cutOff (p : Nat) {i : Nat} (hi : i < t.size) (j : Nat) :
    (t.cutOff p i).parentAt j = if i = j then none else t.parentAt j := by
  rw [cutOff, parentAt_updateParent _ (by rwa [size_update]),
    t.parentAt_updateChildren p j (·.erase i)]

/-- The tree where the children of a node take its place among the children of
a parent. -/
def dissolved (p i : Nat) : ParseTree :=
  ((t.update p fun m =>
    { m with children := replaceFirst i (t.childrenAt i) m.children }).adopt p
      (t.childrenAt i)).update i fun m => { m with children := [], parent := none }

@[simp] theorem size_dissolved (p i : Nat) : (t.dissolved p i).size = t.size := by
  rw [dissolved, size_update, size_adopt, size_update]

@[simp] theorem root_dissolved (p i : Nat) : (t.dissolved p i).root = t.root :=
  root_adopt _ p _

/-- The node loses its children, and the parent gets them in its place. -/
theorem childrenAt_dissolved {p : Nat} (hp : p < t.size) (i j : Nat) :
    (t.dissolved p i).childrenAt j = if i = j then [] else
      if p = j then replaceFirst i (t.childrenAt i) (t.childrenAt j) else t.childrenAt j := by
  rw [dissolved, childrenAt_update, childrenAt_adopt,
    t.childrenAt_updateChildren hp j (replaceFirst i (t.childrenAt i))]
  split
  · generalize (ParseTree.adopt _ p (t.childrenAt i)).nodes[j]? = n
    cases n <;> rfl
  · rfl

/-- The node loses its parent, and its children get that one. -/
theorem parentAt_dissolved (p : Nat) {i : Nat} (hchildren : ∀ c ∈ t.childrenAt i, c < t.size)
    (j : Nat) : (t.dissolved p i).parentAt j = if i = j then none else
      if j ∈ t.childrenAt i then some p else t.parentAt j := by
  rw [dissolved, parentAt_update, parentAt_adopt _ p (by simpa only [size_update] using hchildren),
    t.parentAt_updateChildren p j (replaceFirst i (t.childrenAt i))]
  split
  · generalize (ParseTree.adopt _ p (t.childrenAt i)).nodes[j]? = n
    cases n <;> rfl
  · rfl

end Records

section Lists

variable {i x : Nat} {others l : List Nat}

/-- A place that is listed once is replaced by the others. -/
theorem mem_replaceFirst (hi : i ∈ l) (hl : l.Nodup) :
    x ∈ replaceFirst i others l ↔ x ∈ others ∨ (x ∈ l ∧ x ≠ i) := by
  induction l with
  | nil => exact absurd hi List.not_mem_nil
  | cons j rest ih =>
    obtain ⟨hj, hrest⟩ := List.nodup_cons.mp hl
    rw [replaceFirst]
    split
    · next e =>
      subst e
      rw [List.mem_append, List.mem_cons]
      constructor
      · rintro (hx | hx)
        · exact .inl hx
        · exact .inr ⟨.inr hx, fun e => hj (e ▸ hx)⟩
      · rintro (hx | ⟨hx, hne⟩)
        · exact .inl hx
        · exact .inr (hx.resolve_left hne)
    · next hne =>
      have hmem : i ∈ rest := (List.mem_cons.mp hi).resolve_left fun e => hne e.symm
      rw [List.mem_cons, ih hmem hrest, List.mem_cons]
      constructor
      · rintro (e | hx | ⟨hx, hxi⟩)
        · exact .inr ⟨.inl e, fun ei => hne (e ▸ ei)⟩
        · exact .inl hx
        · exact .inr ⟨.inr hx, hxi⟩
      · rintro (hx | ⟨e | hx, hxi⟩)
        · exact .inr (.inl hx)
        · exact .inl e
        · exact .inr (.inr ⟨hx, hxi⟩)

/-- No place is listed twice after the replacement if the others are new. -/
theorem nodup_replaceFirst (hi : i ∈ l) (hl : l.Nodup) (hothers : others.Nodup)
    (hnew : ∀ x ∈ others, x ∉ l) : (replaceFirst i others l).Nodup := by
  induction l with
  | nil => exact absurd hi List.not_mem_nil
  | cons j rest ih =>
    obtain ⟨hj, hrest⟩ := List.nodup_cons.mp hl
    have hlater : ∀ x ∈ others, x ∉ rest := fun x hx hr => hnew x hx (List.mem_cons_of_mem _ hr)
    rw [replaceFirst]
    split
    · exact List.nodup_append.mpr
        ⟨hothers, hrest, fun a ha b hb e => hlater a ha (e ▸ hb)⟩
    · next hne =>
      have hmem : i ∈ rest := (List.mem_cons.mp hi).resolve_left fun e => hne e.symm
      refine List.nodup_cons.mpr ⟨fun hx => ?_, ih hmem hrest hlater⟩
      rcases (mem_replaceFirst hmem hrest).mp hx with hx | ⟨hx, -⟩
      · exact hnew j hx List.mem_cons_self
      · exact hj hx

end Lists

namespace Linked

variable {t : ParseTree} {i p c : Nat}

/-- Links that agree, name no child twice and go upwards along ranks are those
of a forest. -/
theorem of_ranks (hlinks : ∀ p c, c ∈ t.childrenAt p ↔ t.parentAt c = some p)
    (hnodup : ∀ p, (t.childrenAt p).Nodup) (rank : Nat → Nat)
    (hrank : t.Ranked rank) : t.Linked :=
  ⟨hlinks, hnodup, hrank.ascends⟩

/-- Where nodes come after their parents it suffices to look at the places of
the arena. -/
theorem of_ordered (hdown : ∀ p < t.size, (t.childrenAt p).Nodup ∧
      ∀ c ∈ t.childrenAt p, t.parentAt c = some p)
    (hup : ∀ c < t.size, ∀ p ∈ t.parentAt c, p < c ∧ c ∈ t.childrenAt p) : t.Linked := by
  refine of_ranks (fun p c => ⟨fun hc => ?_, fun hp => ?_⟩) (fun p => ?_) id fun c p hp => ?_
  · exact (hdown p (lt_size_of_mem_childrenAt hc)).2 c hc
  · exact (hup c (lt_size_of_parentAt hp) p hp).2
  · by_cases hp : p < t.size
    · exact (hdown p hp).1
    · exact List.eq_nil_iff_forall_not_mem.mpr (fun c hc => hp (lt_size_of_mem_childrenAt hc)) ▸
        List.nodup_nil
  · exact (hup c (lt_size_of_parentAt hp) p hp).1

/-- Children are in the arena. -/
theorem child_lt (h : t.Linked) (hc : c ∈ t.childrenAt p) : c < t.size :=
  lt_size_of_parentAt ((h.mem_childrenAt_iff p c).mp hc)

/-- Parents are in the arena. -/
theorem parent_lt (h : t.Linked) (hp : t.parentAt c = some p) : p < t.size :=
  lt_size_of_mem_childrenAt ((h.mem_childrenAt_iff p c).mpr hp)

/-- With a root in the arena, or none, the arena is a forest. -/
theorem isForest (h : t.Linked) (hroot : ∀ r, t.root = some r → r < t.size) : t.IsForest where
  child_lt := fun _ _ hc => h.child_lt hc
  parent_lt := fun _ _ hp => h.parent_lt hp
  root_lt := hroot
  mem_childrenAt_iff := h.mem_childrenAt_iff
  nodup := h.nodup
  ascends := h.ascends

/-- A node is not its own parent. -/
theorem parent_ne (h : t.Linked) (hp : t.parentAt i = some p) : p ≠ i := by
  obtain ⟨rank, hrank⟩ := exists_ranked h.ascends
  rintro rfl
  exact Nat.lt_irrefl _ (hrank _ _ hp)

/-- A node may be cut off from its parent. -/
theorem cutOff (h : t.Linked) (hp : t.parentAt i = some p) : (t.cutOff p i).Linked := by
  have hchildren := t.childrenAt_cutOff (h.parent_lt hp) i
  have hparent := t.parentAt_cutOff p (lt_size_of_parentAt hp)
  obtain ⟨rank, hrank⟩ := exists_ranked h.ascends
  refine of_ranks (fun q d => ?_) (fun q => ?_) rank fun d q hq => ?_
  · rw [hchildren, hparent]
    have hold := h.mem_childrenAt_iff q d
    by_cases hd : i = d
    · subst hd
      rw [if_pos rfl]
      rw [hp, Option.some.injEq] at hold
      split
      · simp [(h.nodup q).mem_erase_iff]
      · next hne => simp [hold, hne]
    · rw [if_neg hd, ← hold]
      split
      · simp [(h.nodup q).mem_erase_iff, Ne.symm hd]
      · rfl
  · rw [hchildren]
    split
    · exact (h.nodup q).erase i
    · exact h.nodup q
  · rw [hparent] at hq
    split at hq
    · cases hq
    · exact hrank d q hq

/-- The children of a node may take its place among the children of its
parent. -/
theorem dissolved (h : t.Linked) (hp : t.parentAt i = some p) : (t.dissolved p i).Linked := by
  have hchildren := t.childrenAt_dissolved (h.parent_lt hp) i
  have hparent := t.parentAt_dissolved p fun c (hc : c ∈ t.childrenAt i) => h.child_lt hc
  have hne := h.parent_ne hp
  have hmem : i ∈ t.childrenAt p := (h.mem_childrenAt_iff p i).mpr hp
  have hown : i ∉ t.childrenAt i := fun hm => by
    rw [h.mem_childrenAt_iff, hp, Option.some.injEq] at hm
    exact hne hm
  -- the raised nodes were not among the children of the parent
  have hnew : ∀ x ∈ t.childrenAt i, x ∉ t.childrenAt p := fun x hx hxp => by
    rw [h.mem_childrenAt_iff] at hx hxp
    rw [hx, Option.some.injEq] at hxp
    exact hne hxp.symm
  obtain ⟨rank, hrank⟩ := exists_ranked h.ascends
  refine of_ranks (fun q d => ?_) (fun q => ?_) rank fun d q hq => ?_
  · rw [hchildren, hparent]
    have hold := h.mem_childrenAt_iff q d
    by_cases hd : i = d
    · -- the dissolved node itself is linked no more
      subst hd
      rw [if_pos rfl]
      rw [hp, Option.some.injEq] at hold
      split
      · simp
      · split
        · next e => simp [e ▸ mem_replaceFirst hmem (h.nodup p), hown]
        · next hpq => simp [hold, hpq]
    · rw [if_neg hd]
      have hbelow := h.mem_childrenAt_iff i d
      by_cases hraise : d ∈ t.childrenAt i
      · -- a raised node was a child of the dissolved one
        rw [if_pos hraise, Option.some.injEq]
        rw [hbelow.mp hraise, Option.some.injEq] at hold
        split
        · next e => simp [← e, hne]
        · next hiq =>
          split
          · next e => simp [← e, mem_replaceFirst hmem (h.nodup p), hraise]
          · next hpq => simp [hold, hiq, hpq]
      · rw [if_neg hraise, ← hold]
        split
        · next e => simp [← e, hraise]
        · split
          · next e => simp [← e, mem_replaceFirst hmem (h.nodup p), hraise, Ne.symm hd]
          · rfl
  · rw [hchildren]
    split
    · exact List.nodup_nil
    · split
      · next e => exact e ▸ nodup_replaceFirst hmem (h.nodup p) (h.nodup i) hnew
      · exact h.nodup q
  · rw [hparent] at hq
    split at hq
    · cases hq
    · split at hq
      · next hd =>
        obtain rfl := Option.some.inj hq
        have hup := hrank d i ((h.mem_childrenAt_iff i d).mp hd)
        have hdown := hrank i p hp
        omega
      · exact hrank d q hq

end Linked

namespace IsForest

variable {t : ParseTree} {i p c : Nat}

/-- The links of a forest. -/
theorem linked (h : t.IsForest) : t.Linked := ⟨h.mem_childrenAt_iff, h.nodup, h.ascends⟩

/-- The arena without nodes is a forest. -/
theorem empty : ParseTree.empty.IsForest where
  child_lt := fun _ _ h => absurd h List.not_mem_nil
  parent_lt := fun _ _ h => nomatch h
  root_lt := fun _ h => nomatch h
  mem_childrenAt_iff := fun _ _ => ⟨fun h => absurd h List.not_mem_nil, fun h => nomatch h⟩
  nodup := fun _ => List.nodup_nil
  ascends := fun _ => ⟨1, rfl⟩

/-- Links that agree, name no child twice and go upwards along ranks make a
forest: where a link is recorded on one side, the other side is in the
arena. -/
theorem of_links (hroot : ∀ r, t.root = some r → r < t.size)
    (hlinks : ∀ p c, c ∈ t.childrenAt p ↔ t.parentAt c = some p)
    (hnodup : ∀ p, (t.childrenAt p).Nodup) (rank : Nat → Nat) (hrank : t.Ranked rank) :
    t.IsForest :=
  (Linked.of_ranks hlinks hnodup rank hrank).isForest hroot

/-- A tree with the links of a forest is a forest. -/
theorem of_same_links {u : ParseTree} (h : t.IsForest)
    (hchildren : ∀ j, u.childrenAt j = t.childrenAt j)
    (hparent : ∀ j, u.parentAt j = t.parentAt j)
    (hroot : ∀ r, u.root = some r → r < u.size) : u.IsForest := by
  obtain ⟨rank, hrank⟩ := exists_ranked h.ascends
  refine of_links hroot (fun p c => ?_) (fun p => ?_) rank fun c p hp => ?_
  · rw [hchildren, hparent, h.mem_childrenAt_iff]
  · rw [hchildren]
    exact h.nodup p
  · exact hrank c p (hparent c ▸ hp)

/-- A further node leaves a forest. -/
theorem addNode (h : t.IsForest) (label : Symbol) (token : Option Token) :
    (t.addNode label token).1.IsForest := by
  refine h.of_same_links (t.childrenAt_addNode label token) (t.parentAt_addNode label token) ?_
  intro r hr
  have hlt := h.root_lt r hr
  rw [size, ParseTree.addNode, Array.size_push]
  rw [size] at hlt
  omega

/-- Another root leaves a forest. -/
theorem setRoot (h : t.IsForest) {root : Option Nat} (hr : ∀ r, root = some r → r < t.size) :
    (t.setRoot root).IsForest :=
  h.of_same_links (fun _ => rfl) (fun _ => rfl) hr

/-- Another label leaves a forest. -/
theorem updateLabel (h : t.IsForest) (label : Symbol) :
    (t.update i fun n => { n with label }).IsForest := by
  refine h.of_same_links (fun j => ?_) (fun j => ?_) fun r hr => ?_
  · rw [childrenAt_update]
    split <;> rfl
  · rw [parentAt_update]
    split <;> rfl
  · rw [size_update]
    exact h.root_lt r hr

/-- A node without a parent may be linked to one that is not below it: in the
subtree of the node ranks are raised beyond the rank of the new parent. -/
theorem link (h : t.IsForest) (hp : p < t.size) (hc : c < t.size) (hfree : t.parentAt c = none)
    (hb : ¬t.Below c p) : (t.link p c).IsForest := by
  have hsize : (t.link p c).size = t.size := by rw [ParseTree.link, size_update, size_update]
  have hchildren : ∀ j, (t.link p c).childrenAt j =
      if p = j then t.childrenAt j ++ [c] else t.childrenAt j := by
    intro j
    rw [ParseTree.link, childrenAt_updateChildren _ (by rwa [size_update]) j (· ++ [c]),
      childrenAt_updateParent]
  have hparent : ∀ j, (t.link p c).parentAt j = if c = j then some p else t.parentAt j := by
    intro j
    rw [ParseTree.link, parentAt_updateChildren _ p j (· ++ [c]), t.parentAt_updateParent hc]
  obtain ⟨rank, hrank⟩ := exists_ranked h.ascends
  classical
  refine of_links (fun r hr => hsize ▸ h.root_lt r hr) (fun q d => ?_) (fun q => ?_)
    (fun x => if t.Below c x then rank x + rank p + 1 else rank x) fun d q hq => ?_
  · rw [hchildren, hparent]
    have hold := h.mem_childrenAt_iff q d
    by_cases hd : c = d
    · subst hd
      rw [if_pos rfl, Option.some.injEq]
      rw [hfree] at hold
      split
      · next e => simp [e]
      · next hne => simp [hold, hne]
    · rw [if_neg hd, ← hold]
      split
      · simp [Ne.symm hd]
      · rfl
  · rw [hchildren]
    split
    · have hc' : c ∉ t.childrenAt q := fun hm => by
        rw [h.mem_childrenAt_iff, hfree] at hm
        cases hm
      exact List.nodup_append.mpr ⟨h.nodup q, by simp, fun a ha b hb e =>
        hc' (List.mem_singleton.mp hb ▸ e ▸ ha)⟩
    · exact h.nodup q
  · rw [hparent] at hq
    dsimp only
    split at hq
    · next e =>
      subst e
      obtain rfl := Option.some.inj hq
      rw [if_pos Below.top, if_neg hb]
      omega
    · next hne =>
      have hlt := hrank d q hq
      have hmem := (h.mem_childrenAt_iff q d).mpr hq
      by_cases hd : t.Below c d
      · rw [if_pos hd, if_pos (h.linked.below_parent hd (Ne.symm hne) hq)]
        omega
      · rw [if_neg hd, if_neg fun hq' => hd (.child hq' hmem)]
        exact hlt

/-- A node that is cut off from its parent leaves a forest. -/
theorem cutOff (h : t.IsForest) (hp : t.parentAt i = some p) : (t.cutOff p i).IsForest :=
  (h.linked.cutOff hp).isForest fun r hr => by
    rw [size_cutOff]
    exact h.root_lt r hr

/-- So does a node that is dissolved. -/
theorem dissolved (h : t.IsForest) (hp : t.parentAt i = some p) : (t.dissolved p i).IsForest :=
  (h.linked.dissolved hp).isForest fun r hr => by
    rw [size_dissolved]
    exact h.root_lt r (t.root_dissolved p i ▸ hr)

end IsForest

end PredictiveParsing.ParseTree
