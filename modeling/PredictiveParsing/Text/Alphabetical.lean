/-!
# Alphabetical order

Answers list things by their names, in the order of the code points of the
names. The sort is stable: things of one name keep the order in which they
came.
-/

namespace PredictiveParsing.Text

variable {α : Type}

/-- A thing set before the first one whose name does not precede its own. -/
def insertBy (name : α → String) (a : α) : List α → List α
  | [] => [a]
  | b :: rest => if name b < name a then b :: insertBy name a rest else a :: b :: rest

/-- The things of a list in the alphabetical order of their names. -/
def sortBy (name : α → String) : List α → List α
  | [] => []
  | a :: rest => insertBy name a (sortBy name rest)

theorem insertBy_perm (name : α → String) (a : α) (l : List α) :
    (insertBy name a l).Perm (a :: l) := by
  induction l with
  | nil => exact List.Perm.refl _
  | cons b rest ih =>
    simp only [insertBy]
    split
    · exact (ih.cons b).trans (List.Perm.swap a b rest)
    · exact List.Perm.refl _

/-- Sorting rearranges. -/
theorem sortBy_perm (name : α → String) (l : List α) : (sortBy name l).Perm l := by
  induction l with
  | nil => exact List.Perm.refl _
  | cons a rest ih => exact (insertBy_perm name a _).trans (ih.cons a)

@[simp] theorem mem_sortBy {name : α → String} {a : α} {l : List α} :
    a ∈ sortBy name l ↔ a ∈ l := (sortBy_perm name l).mem_iff

theorem insertBy_ordered {name : α → String} {a : α} {l : List α}
    (h : l.Pairwise fun b c => ¬name c < name b) :
    (insertBy name a l).Pairwise fun b c => ¬name c < name b := by
  induction l with
  | nil => simp [insertBy]
  | cons b rest ih =>
    obtain ⟨hb, hrest⟩ := List.pairwise_cons.mp h
    simp only [insertBy]
    split
    · next hlt =>
      refine List.pairwise_cons.mpr ⟨fun c hc => ?_, ih hrest⟩
      rcases List.mem_cons.mp ((insertBy_perm name a rest).mem_iff.mp hc) with e | hc
      · exact e ▸ String.lt_asymm hlt
      · exact hb c hc
    · next hlt =>
      refine List.pairwise_cons.mpr ⟨fun c hc hca => ?_, h⟩
      rcases List.mem_cons.mp hc with e | hc
      · exact hlt (e ▸ hca)
      · have hle := String.le_trans (String.not_lt.mp hlt) (String.not_lt.mp (hb c hc))
        exact String.not_lt.mpr hle hca

/-- In a sorted list no name precedes an earlier one. -/
theorem sortBy_ordered (name : α → String) (l : List α) :
    (sortBy name l).Pairwise fun b c => ¬name c < name b := by
  induction l with
  | nil => exact List.Pairwise.nil
  | cons a rest ih => exact insertBy_ordered ih

end PredictiveParsing.Text
