import Mathlib.Data.List.Nodup
import PredictiveParsing.ActionTable
import PredictiveParsing.Proofs.Stabilize
import PredictiveParsing.Proofs.SymbolTable
import PredictiveParsing.Proofs.Grammar.Validity

/-!
# What an action table holds

A cell holds the alternatives that its terminal predicts for its variable, and
the filled cells are those that hold something. Nothing is stored twice in a
cell, so that as many alternatives are stored as are listed. If no filled cell
stores more than one alternative, a variable and a terminal have at most one
predicted alternative.
-/

namespace PredictiveParsing

/-- The alternatives in a cell of some rows. -/
def ActionRows.cellOf (rows : ActionRows) (a t : Symbol) : List Body :=
  ((rows.get? a).bind fun row => row.get? t).getD []

namespace ActionRows

variable {rows : ActionRows} {a b t u : Symbol} {body other : Body}

/-- The cell of a body that is added gets it, and no other cell changes. -/
theorem cellOf_add : (rows.add a t body).cellOf b u =
    if a = b ∧ t = u then
      if Body.among body (rows.cellOf a t) then rows.cellOf a t else rows.cellOf a t ++ [body]
    else rows.cellOf b u := by
  have hcell : (((rows.get? a).getD SymbolTable.empty).get? t).getD [] = rows.cellOf a t := by
    rw [cellOf]
    cases rows.get? a with
    | none => rfl
    | some row => rfl
  rw [add]
  rw [hcell, cellOf, SymbolTable.get?_set]
  by_cases ha : a = b
  · rw [if_pos ha, Option.bind_some, SymbolTable.get?_set]
    by_cases ht : t = u
    · have hboth : a = b ∧ t = u := ⟨ha, ht⟩
      rw [if_pos ht, if_pos hboth, Option.getD_some]
    · have hboth : ¬(a = b ∧ t = u) := fun h => ht h.2
      rw [if_neg ht, if_neg hboth, ha, cellOf]
      cases rows.get? b with
      | none => rfl
      | some row => rfl
  · have hboth : ¬(a = b ∧ t = u) := fun h => ha h.1
    rw [if_neg ha, if_neg hboth, cellOf]

/-- A cell has what it had and what is added to it. -/
theorem mem_cellOf_add : other ∈ (rows.add a t body).cellOf b u ↔
    other ∈ rows.cellOf b u ∨ (b, u, other) = (a, t, body) := by
  rw [cellOf_add]
  by_cases hboth : a = b ∧ t = u
  · obtain ⟨rfl, rfl⟩ := hboth
    rw [if_pos ⟨rfl, rfl⟩]
    by_cases hin : Body.among body (rows.cellOf a t) = true
    · rw [if_pos hin]
      refine ⟨.inl, fun h => h.elim id fun he => ?_⟩
      rw [(Prod.mk.inj (Prod.mk.inj he).2).2]
      exact Body.among_iff.mp hin
    · rw [if_neg hin, List.mem_append, List.mem_singleton]
      exact or_congr_right ⟨fun e => by rw [e], fun he => (Prod.mk.inj (Prod.mk.inj he).2).2⟩
  · rw [if_neg hboth]
    refine ⟨.inl, fun h => h.elim id fun he => ?_⟩
    exact absurd ⟨(Prod.mk.inj he).1.symm, (Prod.mk.inj (Prod.mk.inj he).2).1.symm⟩ hboth

/-- After all additions a cell has what it had and what was added to it. -/
theorem mem_cellOf_foldl {l : List (Symbol × Symbol × Body)} :
    other ∈ (l.foldl (fun rows p => rows.add p.1 p.2.1 p.2.2) rows).cellOf b u ↔
      other ∈ rows.cellOf b u ∨ (b, u, other) ∈ l := by
  induction l generalizing rows with
  | nil => exact (or_iff_left List.not_mem_nil).symm
  | cons p rest ih => rw [List.foldl_cons, ih, mem_cellOf_add, List.mem_cons, or_assoc]

/-- Rows where every cell that is there holds something, and nothing
twice. -/
structure Tight (rows : ActionRows) : Prop where
  /-- No cell holds a body twice. -/
  nodup : ∀ a t, (rows.cellOf a t).Nodup
  /-- A cell that is there holds something. -/
  ne_nil : ∀ a t row cell, rows.get? a = some row → row.get? t = some cell → cell ≠ []

/-- Adding a body to a cell keeps the rows tight. -/
theorem Tight.add (hr : rows.Tight) (a t : Symbol) (body : Body) :
    (rows.add a t body).Tight := by
  refine ⟨fun b u => ?_, fun b u row cell hrow hcell => ?_⟩
  · rw [cellOf_add]
    split
    · split
      · exact hr.nodup a t
      · next hnew =>
        rw [Body.among_iff] at hnew
        refine (hr.nodup a t).append (List.nodup_singleton body) fun x hx hx' => ?_
        exact hnew (List.mem_singleton.mp hx' ▸ hx)
    · exact hr.nodup b u
  · rw [ActionRows.add, SymbolTable.get?_set] at hrow
    split at hrow
    · rw [← Option.some.inj hrow, SymbolTable.get?_set] at hcell
      split at hcell
      · rw [← Option.some.inj hcell]
        split
        · next hin => exact List.ne_nil_of_mem (Body.among_iff.mp hin)
        · exact List.append_ne_nil_of_right_ne_nil _ (List.cons_ne_nil _ _)
      · cases hold : rows.get? a with
        | none =>
          rw [hold] at hcell
          cases hcell
        | some old =>
          rw [hold] at hcell
          exact hr.ne_nil a u old cell hold hcell
    · exact hr.ne_nil b u row cell hrow hcell

end ActionRows

/-- The predictions are the alternatives with the terminals that predict
them. -/
theorem mem_predictions {g : Grammar} {l : Lookahead} {a t : Symbol} {body : Body} :
    (a, t, body) ∈ predictions g l ↔
      body ∈ g.rulesOf a ∧ t ∈ predictors l (l.follow.members a) body := by
  rw [predictions, List.mem_flatMap]
  constructor
  · intro ⟨owner, _, hp⟩
    obtain ⟨alternative, hbody, hp⟩ := List.mem_flatMap.mp hp
    obtain ⟨u, hu, he⟩ := List.mem_map.mp hp
    obtain ⟨rfl, hrest⟩ := Prod.mk.inj he
    obtain ⟨rfl, rfl⟩ := Prod.mk.inj hrest
    exact ⟨hbody, hu⟩
  · intro ⟨hbody, ht⟩
    have ha := Grammar.mem_displayOrder.mpr (Grammar.mem_vars_of_mem_rulesOf hbody)
    exact ⟨a, ha, List.mem_flatMap.mpr ⟨body, hbody, List.mem_map.mpr ⟨t, ht, rfl⟩⟩⟩

namespace ActionTable

/-- The predictions are stored, and nothing else is. -/
theorem mem_stored_iff {g : Grammar} {l : Lookahead} {a t : Symbol} {body : Body} :
    body ∈ (build g l).stored a t ↔ (a, t, body) ∈ predictions g l :=
  ActionRows.mem_cellOf_foldl.trans (or_iff_right List.not_mem_nil)

/-- A cell that holds something is filled. -/
theorem mem_filledCells {table : ActionTable} {a t : Symbol} {body : Body}
    (h : body ∈ table.stored a t) : (a, t) ∈ table.filledCells := by
  rw [stored] at h
  cases hrow : table.rows.get? a with
  | none =>
    rw [hrow] at h
    exact absurd h List.not_mem_nil
  | some row =>
    rw [hrow, Option.bind_some] at h
    cases hcell : row.get? t with
    | none =>
      rw [hcell] at h
      exact absurd h List.not_mem_nil
    | some cell =>
      have ha : a ∈ table.rows.keySet.members :=
        SymbolSet.mem_ofList.mpr (SymbolTable.mem_keys_iff.mpr ⟨row, hrow⟩)
      have ht : t ∈ row.keySet.members :=
        SymbolSet.mem_ofList.mpr (SymbolTable.mem_keys_iff.mpr ⟨cell, hcell⟩)
      refine List.mem_flatMap.mpr ⟨a, ha, ?_⟩
      rw [hrow, Option.map_some, Option.getD_some]
      exact List.mem_map.mpr ⟨t, ht, rfl⟩

/-- The rows of a table are tight. -/
theorem tight_rows (g : Grammar) (l : Lookahead) : (build g l).rows.Tight := by
  refine foldl_keeps (fun rows hr p _ => hr.add p.1 p.2.1 p.2.2) _ ⟨fun a t => ?_, ?_⟩
  · exact List.nodup_nil
  · intro a t row cell hrow
    cases hrow

/-- The filled cells are those for which something is predicted. -/
theorem mem_filledCells_iff {g : Grammar} {l : Lookahead} {a t : Symbol} :
    (a, t) ∈ (build g l).filledCells ↔ ∃ body, (a, t, body) ∈ predictions g l := by
  constructor
  · intro hcell
    obtain ⟨b, -, hb⟩ := List.mem_flatMap.mp hcell
    obtain ⟨u, hu, he⟩ := List.mem_map.mp hb
    obtain ⟨rfl, rfl⟩ := Prod.mk.inj he
    cases hrow : (build g l).rows.get? b with
    | none =>
      rw [hrow] at hu
      exact absurd hu List.not_mem_nil
    | some row =>
      rw [hrow, Option.map_some, Option.getD_some] at hu
      obtain ⟨cell, hget⟩ := SymbolTable.mem_keys_iff.mp (SymbolSet.mem_ofList.mp hu)
      obtain ⟨body, hbody⟩ :=
        List.exists_mem_of_ne_nil cell ((tight_rows g l).ne_nil b u row cell hrow hget)
      refine ⟨body, mem_stored_iff.mp ?_⟩
      rw [stored, hrow, Option.bind_some, hget]
      exact hbody
  · rintro ⟨body, hbody⟩
    exact mem_filledCells (mem_stored_iff.mpr hbody)

/-- A cell holds the alternatives that the terminal predicts for the
variable. -/
theorem mem_cell_iff {g : Grammar} {l : Lookahead} {a t : Symbol} {body : Body} :
    body ∈ (build g l).cell a t ↔
      body ∈ g.rulesOf a ∧ t ∈ predictors l (l.follow.members a) body := by
  rw [cell, List.mem_filter, List.mem_eraseDups, Body.among_iff, mem_stored_iff, mem_predictions,
    ← and_assoc]
  exact and_congr_left fun _ => and_self_iff

/-- A cell lists no alternative twice. -/
theorem nodup_cell (table : ActionTable) (a t : Symbol) : (table.cell a t).Nodup :=
  (nodup_eraseDups _).filter _

/-- A cell lists what is stored in it, in the order of the rules instead of the
order of the additions. -/
theorem cell_perm_stored {g : Grammar} {l : Lookahead} {a t : Symbol} :
    ((build g l).cell a t).Perm ((build g l).stored a t) := by
  refine (List.perm_ext_iff_of_nodup (nodup_cell _ a t) ((tight_rows g l).nodup a t)).mpr ?_
  intro body
  exact mem_cell_iff.trans (mem_predictions.symm.trans mem_stored_iff.symm)

/-- A table is LL of a number if no cell lists more alternatives, among the
cells that list something. -/
theorem isLL_iff {g : Grammar} {l : Lookahead} {n : Int} :
    (build g l).isLL n = true ↔ ∀ a t, (build g l).cell a t ≠ [] →
      (((build g l).cell a t).length : Int) ≤ n := by
  rw [isLL, List.all_eq_true]
  constructor
  · intro h a t hne
    obtain ⟨body, hbody⟩ := List.exists_mem_of_ne_nil _ hne
    have hfilled := mem_filledCells (cell_perm_stored.mem_iff.mp hbody)
    rw [cell_perm_stored.length_eq]
    exact of_decide_eq_true (h (a, t) hfilled)
  · intro h ⟨a, t⟩ hfilled
    obtain ⟨body, hbody⟩ := mem_filledCells_iff.mp hfilled
    have hmem := cell_perm_stored.mem_iff.mpr (mem_stored_iff.mpr hbody)
    rw [decide_eq_true_eq, ← cell_perm_stored.length_eq]
    exact h a t (List.ne_nil_of_mem hmem)

/-- Without conflicts a cell that holds an alternative holds nothing else. -/
theorem cell_eq_singleton {g : Grammar} {l : Lookahead} (h : (build g l).isLL 1 = true)
    {a t : Symbol} {body : Body} (hb : body ∈ (build g l).cell a t) :
    (build g l).cell a t = [body] := by
  have hlength := isLL_iff.mp h a t (List.ne_nil_of_mem hb)
  match hcell : (build g l).cell a t, hb with
  | [other], hb => rw [List.mem_singleton.mp hb]
  | _ :: _ :: _, _ =>
    rw [hcell, List.length_cons, List.length_cons] at hlength
    omega

/-- So a variable and a terminal have at most one predicted alternative. -/
theorem eq_of_isLL {g : Grammar} {l : Lookahead} (h : (build g l).isLL 1 = true) {a t : Symbol}
    {body other : Body} (hb : body ∈ (build g l).cell a t)
    (ho : other ∈ (build g l).cell a t) : body = other := by
  rw [cell_eq_singleton h ho] at hb
  exact List.mem_singleton.mp hb

end ActionTable

/-- A terminal with which the first symbol of a body can start predicts
it. -/
theorem mem_predictors_of_first {l : Lookahead} {follow : SymbolSet} {x t : Symbol} {body : Body}
    (hx : body.head? = some x) (ht : t ∈ l.firstOf x) (hne : t ≠ .epsilon) :
    t ∈ predictors l follow body := by
  obtain ⟨rest, rfl⟩ := List.head?_eq_some_iff.mp hx
  rw [predictors]
  exact List.mem_append_left _ (SymbolSet.mem_erase.mpr ⟨ht, hne⟩)

/-- Of a body whose first symbol cannot vanish nothing else is a predictor. -/
theorem mem_first_of_predictors {l : Lookahead} {follow : SymbolSet} {x t : Symbol} {body : Body}
    (hx : body.head? = some x) (hstays : .epsilon ∉ l.firstOf x)
    (ht : t ∈ predictors l follow body) : t ∈ l.firstOf x ∧ t ≠ .epsilon := by
  obtain ⟨rest, rfl⟩ := List.head?_eq_some_iff.mp hx
  rw [predictors] at ht
  rw [if_neg hstays, List.append_nil] at ht
  exact SymbolSet.mem_erase.mp ht

end PredictiveParsing
