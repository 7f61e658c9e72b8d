import Mathlib.Data.List.Pairwise
import PredictiveParsing.Proofs.ActionTable
import PredictiveParsing.Proofs.Lookahead.Follow

/-!
# Tables without conflicts by larger sets

To see that an action table has no conflicts its FIRST and FOLLOW sets need
not be computed. Sets that are closed under what the passes demand hold all
members of the computed ones, and where the predictors that they give to the
alternatives of a variable are apart, so are the predictors of the table. Both
are tests that look at each body once.
-/

namespace PredictiveParsing

/-- Two sets for every symbol, given as lists. -/
structure SetBounds where
  /-- What the FIRST set may hold. -/
  first : Symbol → List Symbol
  /-- What the FOLLOW set may hold. -/
  follow : Symbol → List Symbol

/-- The terminals that predict a body as far as the bounds tell. -/
def SetBounds.predictors (b : SetBounds) (a : Symbol) : Body → List Symbol
  | [] => []
  | x :: rest =>
    (b.first x).filter (fun t => decide (t ≠ .epsilon)) ++
      if .epsilon ∈ b.first x then b.follow a ++ b.predictors a rest else []

/-- Whether the bounds have what the nonterminals of a body of a variable
demand: what the next symbol can start with, and what follows the variable
where the body can end. -/
def SetBounds.followsIn (b : SetBounds) (a : Symbol) : Body → Bool
  | [] => true
  | x :: rest =>
    (!x.isNonterminal ||
      (rest.head?.all fun y => (b.first y).all fun t => t.isEpsilon || decide (t ∈ b.follow x)) &&
      (rest.head?.any (fun y => decide (.epsilon ∉ b.first y)) ||
        (b.follow a).all fun t => decide (t ∈ b.follow x))) &&
    b.followsIn a rest

/-- Whether the bounds have what a body of a variable demands. -/
def SetBounds.admits (b : SetBounds) (a : Symbol) (body : Body) : Bool :=
  (body.head?.all fun x => (b.first x).all fun t => decide (t ∈ b.first a)) && b.followsIn a body

/-- The bounds of a table, which gives a list of each kind to variables;
symbols other than nonterminals start with themselves only. -/
def SetBounds.ofTable (table : List (Symbol × List Symbol × List Symbol)) : SetBounds where
  first x :=
    if x.isNonterminal then ((SymbolTable.find table x).map Prod.fst).getD [] else [x]
  follow x := ((SymbolTable.find table x).map Prod.snd).getD []

/-- What a nonterminal demands at its place in a body. -/
theorem SetBounds.of_followsIn {b : SetBounds} {a x : Symbol} {left rest : Body}
    (h : b.followsIn a (left ++ x :: rest) = true) (hx : x.isNonterminal = true) :
    (∀ y, rest.head? = some y → ∀ t ∈ b.first y, t ≠ .epsilon → t ∈ b.follow x) ∧
      ((∀ y, rest.head? = some y → .epsilon ∈ b.first y) → b.follow a ⊆ b.follow x) := by
  induction left with
  | cons z left ih =>
    rw [List.cons_append, followsIn, Bool.and_eq_true] at h
    exact ih h.2
  | nil =>
    rw [List.nil_append, followsIn, hx, Bool.not_true, Bool.false_or, Bool.and_eq_true,
      Bool.and_eq_true, Bool.or_eq_true] at h
    obtain ⟨⟨hnext, hending⟩, -⟩ := h
    refine ⟨fun y hy t ht hne => ?_, fun hvanish t ht => ?_⟩
    · rw [hy, Option.all_some] at hnext
      rcases Bool.or_eq_true_iff.mp (List.all_eq_true.mp hnext t ht) with he | hmem
      · exact absurd (Symbol.isEpsilon_iff.mp he) hne
      · exact of_decide_eq_true hmem
    · rcases hending with hany | hall
      · cases hy : rest.head? with
        | none =>
          rw [hy] at hany
          cases hany
        | some y =>
          rw [hy, Option.any_some] at hany
          exact absurd (hvanish y hy) (of_decide_eq_true hany)
      · exact of_decide_eq_true (List.all_eq_true.mp hall t ht)

/-- Cells of rows hold at most one body if it is determined by the variable
and the terminal. -/
theorem ActionRows.length_cellOf_le {l : List (Symbol × Symbol × Body)}
    (h : ∀ a t body other, (a, t, body) ∈ l → (a, t, other) ∈ l → body = other) (a t : Symbol) :
    (ActionRows.cellOf (l.foldl (fun rows p => rows.add p.1 p.2.1 p.2.2) SymbolTable.empty)
      a t).length ≤ 1 := by
  let holds : ActionRows → Prop := fun rows => ∀ a t, rows.cellOf a t = [] ∨
    ∃ body, rows.cellOf a t = [body] ∧ (a, t, body) ∈ l
  have keep : ∀ rows, holds rows → ∀ p ∈ l, holds (rows.add p.1 p.2.1 p.2.2) := by
    intro rows hrows ⟨b, u, new⟩ hp a t
    rw [cellOf_add]
    split
    · next hboth =>
      obtain ⟨ha, ht⟩ := hboth
      dsimp only at ha ht ⊢
      rw [← ha, ← ht]
      rcases hrows b u with hnil | ⟨body, hbody, hmem⟩
      · rw [hnil]
        exact .inr ⟨new, rfl, hp⟩
      · have hnew : Body.among new (rows.cellOf b u) = true := by
          rw [hbody, Body.among_iff, h b u new body hp hmem]
          exact List.mem_cons_self
        rw [if_pos hnew]
        exact .inr ⟨body, hbody, hmem⟩
    · exact hrows a t
  have hend : holds (l.foldl (fun rows p => rows.add p.1 p.2.1 p.2.2) SymbolTable.empty) :=
    foldl_keeps keep _ fun _ _ => .inl rfl
  rcases hend a t with hnil | ⟨body, hbody, -⟩
  · rw [hnil]
    exact Nat.zero_le 1
  · rw [hbody]
    exact Nat.le_refl 1

/-- Where predictions determine the alternative the table has no conflicts. -/
theorem ActionTable.isLL_of_determined {g : Grammar} {l : Lookahead}
    (h : ∀ a t body other, (a, t, body) ∈ predictions g l → (a, t, other) ∈ predictions g l →
      body = other) : (build g l).isLL 1 = true := by
  refine List.all_eq_true.mpr fun cell _ => decide_eq_true ?_
  have hlength := ActionRows.length_cellOf_le h cell.1 cell.2
  exact Int.ofNat_le.mpr hlength

namespace Grammar

/-- Sets that are closed under what the passes demand. -/
structure BoundedBy (g : Grammar) (b : SetBounds) : Prop where
  /-- A symbol other than a nonterminal can start with itself. -/
  fixed : ∀ x, x.isNonterminal = false → x ∈ b.first x
  /-- A variable can start with what a leading symbol can start with. -/
  leading : ∀ a, ∀ body ∈ g.rulesOf a, ∀ x, body.head? = some x → b.first x ⊆ b.first a
  /-- What the next symbol can start with follows a nonterminal. -/
  next : ∀ a left x y rest, left ++ x :: y :: rest ∈ g.rulesOf a → x.isNonterminal = true →
    ∀ t ∈ b.first y, t ≠ .epsilon → t ∈ b.follow x
  /-- What follows the owner of a body follows a nonterminal with which the
  body can end. -/
  ending : ∀ a left x rest, left ++ x :: rest ∈ g.rulesOf a → x.isNonterminal = true →
    (∀ y, rest.head? = some y → .epsilon ∈ b.first y) → b.follow a ⊆ b.follow x

variable {g : Grammar} {b : SetBounds} {a x t : Symbol} {body : Body}

/-- The FIRST sets lie within the bounds. -/
theorem BoundedBy.mem_first (h : g.BoundedBy b) (hg : g.Closed)
    (hx : x.isNonterminal = true → x ∈ g.vars) (ht : t ∈ g.firstTable.lookup x) :
    t ∈ b.first x := by
  obtain ⟨n, hn⟩ := hg.firstSets.leads hg ht
  clear ht
  induction hn with
  | self notMem =>
    refine h.fixed _ ?_
    rw [← Bool.not_eq_true]
    exact fun hk => notMem (hx hk)
  | step mem head _ ih =>
    exact h.leading _ _ mem _ head
      (ih fun hk => hg.body_declared _ _ mem _ (List.mem_of_head? head) hk)

/-- What an occurrence contributes lies within the bounds if the sets did. -/
theorem BoundedBy.mem_contribution (h : g.BoundedBy b) (hg : g.Closed) {table : FollowTable}
    (htable : ∀ a, ∀ t ∈ table.members a, t ∈ b.follow a) {o : Occurrence}
    (ho : o ∈ g.occurrences) (ht : t ∈ table.contribution g.firstTable o) :
    t ∈ b.follow o.subject := by
  obtain ⟨owner, x, next⟩ := o
  obtain ⟨body, hbody, left, rest, hsplit, hv, hnext⟩ := mem_occurrences.mp ho
  have hk := hg.vars_nonterminal x hv
  rw [hsplit] at hbody
  have first : ∀ y, rest.head? = some y → ∀ u ∈ g.firstTable.lookup y, u ∈ b.first y := by
    intro y hy u hu
    refine h.mem_first hg (fun hyk => hg.body_declared owner _ hbody y ?_ hyk) hu
    exact List.mem_append_right _ (List.mem_cons_of_mem _ (List.mem_of_head? hy))
  rw [FollowTable.contribution, SymbolSet.mem_union] at ht
  rcases ht with ht | ht
  · rw [Occurrence.successors] at ht
    cases rest with
    | nil =>
      rw [hnext] at ht
      exact absurd ht (SymbolSet.not_mem_empty t)
    | cons y rest =>
      rw [hnext] at ht
      obtain ⟨hlookup, hne⟩ := SymbolSet.mem_erase.mp ht
      exact h.next owner left x y rest hbody hk t (first y rfl t hlookup) hne
  · split at ht
    · next hends =>
      refine h.ending owner left x rest hbody hk (fun y hy => ?_) (htable owner t ht)
      rw [Occurrence.endsBody] at hends
      dsimp only at hends
      rw [hnext, hy] at hends
      exact first y hy _ (of_decide_eq_true hends)
    · exact absurd ht (SymbolSet.not_mem_empty t)

/-- The FOLLOW sets lie within the bounds. -/
theorem BoundedBy.mem_follow (h : g.BoundedBy b) (hg : g.Closed)
    (ht : t ∈ g.followTable.members a) : t ∈ b.follow a :=
  followTable_induction (fun a t => t ∈ b.follow a)
    (fun _ htable _ ho _ _ hnew => h.mem_contribution hg htable ho hnew) ht

/-- The predictors of a body lie within the bounds. -/
theorem BoundedBy.mem_predictors (h : g.BoundedBy b) (hg : g.Closed)
    (hbody : ∀ x ∈ body, x.isNonterminal = true → x ∈ g.vars)
    (ht : t ∈ predictors (Lookahead.ofGrammar g) (g.followTable.members a) body) :
    t ∈ b.predictors a body := by
  induction body with
  | nil => exact ht
  | cons x rest ih =>
    obtain ⟨hx, hrest⟩ := List.forall_mem_cons.mp hbody
    have first : ∀ u ∈ g.firstTable.lookup x, u ∈ b.first x := fun u hu => h.mem_first hg hx hu
    rw [PredictiveParsing.predictors, List.mem_append] at ht
    rw [SetBounds.predictors, List.mem_append]
    rcases ht with ht | ht
    · obtain ⟨hlookup, hne⟩ := SymbolSet.mem_erase.mp ht
      exact .inl (List.mem_filter.mpr ⟨first t hlookup, decide_eq_true hne⟩)
    · split at ht
      · next he =>
        rw [if_pos (first _ he), List.mem_append]
        refine .inr ((List.mem_append.mp ht).imp (h.mem_follow hg) (ih hrest))
      · exact absurd ht List.not_mem_nil

/-- A table of bounds that has what all bodies demand bounds the sets. -/
theorem boundedBy_ofTable {table : List (Symbol × List Symbol × List Symbol)}
    (h : (g.rules.entries.all fun entry =>
      entry.2.all ((SetBounds.ofTable table).admits entry.1)) = true) :
    g.BoundedBy (SetBounds.ofTable table) := by
  have passes := Components.forall_mem_rulesOf_of_entries (SetBounds.ofTable table).admits h
  refine ⟨fun x hx => ?_, fun a body hbody x hx t ht => ?_, ?_, ?_⟩
  · rw [SetBounds.ofTable]
    dsimp only
    rw [hx]
    exact List.mem_cons_self
  · have hleading := (Bool.and_eq_true_iff.mp (passes a body hbody)).1
    rw [hx, Option.all_some] at hleading
    exact of_decide_eq_true (List.all_eq_true.mp hleading t ht)
  · intro a left x y rest hbody hx
    have hfollows := (Bool.and_eq_true_iff.mp (passes a _ hbody)).2
    exact (SetBounds.of_followsIn hfollows hx).1 y rfl
  · intro a left x rest hbody hx
    have hfollows := (Bool.and_eq_true_iff.mp (passes a _ hbody)).2
    exact (SetBounds.of_followsIn hfollows hx).2

/-- Where the bounds keep the predictors of the alternatives apart the table
has no conflicts. -/
theorem BoundedBy.isLL (h : g.BoundedBy b) (hg : g.Closed)
    (hapart : (g.rules.entries.all fun entry => decide (entry.2.Pairwise fun body other =>
      ∀ t ∈ b.predictors entry.1 body, t ∉ b.predictors entry.1 other)) = true) :
    (ActionTable.ofGrammar g).isLL 1 = true := by
  have inside : ∀ {a t body}, (a, t, body) ∈ predictions g (Lookahead.ofGrammar g) →
      body ∈ g.rulesOf a ∧ t ∈ b.predictors a body := by
    intro a t body hp
    obtain ⟨hbody, hu⟩ := mem_predictions.mp hp
    exact ⟨hbody, h.mem_predictors hg (fun x hx => hg.body_declared a body hbody x hx) hu⟩
  refine ActionTable.isLL_of_determined fun a t body other hb ho => ?_
  obtain ⟨hbody, htb⟩ := inside hb
  obtain ⟨hother, hto⟩ := inside ho
  have hentry := SymbolTable.mem_entries_iff.mpr (Components.get?_eq_some_of_mem_rulesOf hbody)
  have hpairs := of_decide_eq_true (List.all_eq_true.mp hapart _ hentry)
  have hsymm : Std.Symm fun body other : Body =>
      ∀ t ∈ b.predictors a body, t ∉ b.predictors a other := ⟨fun _ _ hd t ht hto => hd t hto ht⟩
  by_contra hne
  exact hpairs.forall hbody hother hne t htb hto

end Grammar

end PredictiveParsing
