import PredictiveParsing.Symbol

/-!
# Finite sets of symbols

A set is the strictly ascending list of its members, so that sets with the
same members are equal and every traversal of a set meets its members in
the order of symbols. Members are inserted, united and filtered; what each
operation does is said by its membership lemma.
-/

namespace PredictiveParsing

/-- A finite set of symbols. -/
structure SymbolSet where
  /-- The members in ascending order. -/
  members : List Symbol
  /-- The order is strict, so that no member is listed twice. -/
  ascending : members.Pairwise (· < ·)
  deriving DecidableEq

namespace SymbolSet

instance : Membership Symbol SymbolSet := ⟨fun s a => a ∈ s.members⟩

theorem mem_members {s : SymbolSet} {a : Symbol} : a ∈ s.members ↔ a ∈ s := Iff.rfl

instance (a : Symbol) (s : SymbolSet) : Decidable (a ∈ s) :=
  decidable_of_iff (a ∈ s.members) Iff.rfl

/-- Strictly ascending lists with the same members are equal. -/
theorem eq_of_ascending {l m : List Symbol} (hl : l.Pairwise (· < ·)) (hm : m.Pairwise (· < ·))
    (h : ∀ a, a ∈ l ↔ a ∈ m) : l = m := by
  induction l generalizing m with
  | nil =>
    cases m with
    | nil => rfl
    | cons b m => exact absurd ((h b).mpr (by simp)) (by simp)
  | cons a l ih =>
    cases m with
    | nil => exact absurd ((h a).mp (by simp)) (by simp)
    | cons b m =>
      simp only [List.pairwise_cons] at hl hm
      have hab : a = b := by
        refine Decidable.byContradiction fun hne => ?_
        have ha : a ∈ m := by
          have := (h a).mp (by simp)
          simpa [hne] using this
        have hb : b ∈ l := by
          have := (h b).mpr (by simp)
          simpa [Ne.symm hne] using this
        exact Symbol.lt_irrefl a (Symbol.lt_trans (hl.1 b hb) (hm.1 a ha))
      subst hab
      refine congrArg _ (ih hl.2 hm.2 fun c => ?_)
      have hc := h c
      simp only [List.mem_cons] at hc
      constructor
      · intro hcl
        refine (hc.mp (Or.inr hcl)).resolve_left fun e => ?_
        exact Symbol.lt_irrefl a (e ▸ hl.1 c hcl)
      · intro hcm
        refine (hc.mpr (Or.inr hcm)).resolve_left fun e => ?_
        exact Symbol.lt_irrefl a (e ▸ hm.1 c hcm)

/-- Sets with the same members are equal. -/
@[ext] theorem ext {s t : SymbolSet} (h : ∀ a, a ∈ s ↔ a ∈ t) : s = t := by
  cases s with
  | mk l hl =>
    cases t with
    | mk m hm =>
      have := eq_of_ascending hl hm h
      subst this
      rfl

/-- The set without members. -/
def empty : SymbolSet := ⟨[], List.Pairwise.nil⟩

instance : EmptyCollection SymbolSet := ⟨empty⟩

instance : Inhabited SymbolSet := ⟨empty⟩

@[simp] theorem not_mem_empty (a : Symbol) : a ∉ (∅ : SymbolSet) :=
  List.not_mem_nil

/-- A symbol set into its place in an ascending list, unless it is there. -/
def insertSorted (a : Symbol) : List Symbol → List Symbol
  | [] => [a]
  | b :: rest =>
    if a = b then b :: rest else if a < b then a :: b :: rest else b :: insertSorted a rest

theorem mem_insertSorted {a b : Symbol} {l : List Symbol} :
    b ∈ insertSorted a l ↔ b = a ∨ b ∈ l := by
  induction l with
  | nil => simp [insertSorted]
  | cons c rest ih =>
    simp only [insertSorted]
    split
    · next h => subst h; simp
    · split
      · simp
      · simp only [List.mem_cons, ih]
        constructor
        · rintro (h | h | h) <;> simp [h]
        · rintro (h | h | h) <;> simp [h]

theorem ascending_insertSorted {a : Symbol} {l : List Symbol} (h : l.Pairwise (· < ·)) :
    (insertSorted a l).Pairwise (· < ·) := by
  induction l with
  | nil => simp [insertSorted]
  | cons c rest ih =>
    have hc := List.pairwise_cons.mp h
    simp only [insertSorted]
    split
    · exact h
    · next hne =>
      split
      · next hlt =>
        refine List.pairwise_cons.mpr ⟨fun d hd => ?_, h⟩
        rcases List.mem_cons.mp hd with e | hd
        · exact e ▸ hlt
        · exact Symbol.lt_trans hlt (hc.1 d hd)
      · next hlt =>
        refine List.pairwise_cons.mpr ⟨fun d hd => ?_, ih hc.2⟩
        rcases mem_insertSorted.mp hd with e | hd
        · exact e ▸ Symbol.lt_of_not_lt_of_ne hlt hne
        · exact hc.1 d hd

/-- The set with one more member. -/
def insert (a : Symbol) (s : SymbolSet) : SymbolSet :=
  ⟨insertSorted a s.members, ascending_insertSorted s.ascending⟩

@[simp] theorem mem_insert {a b : Symbol} {s : SymbolSet} : b ∈ s.insert a ↔ b = a ∨ b ∈ s :=
  mem_insertSorted

/-- The set of the members of a list. -/
def ofList (l : List Symbol) : SymbolSet := l.foldr insert ∅

@[simp] theorem mem_ofList {a : Symbol} {l : List Symbol} : a ∈ ofList l ↔ a ∈ l := by
  induction l with
  | nil => simp [ofList]
  | cons b rest ih => simpa [ofList] using or_congr_right ih

/-- The set with a single member. -/
def singleton (a : Symbol) : SymbolSet := ⟨[a], List.pairwise_singleton _ _⟩

@[simp] theorem mem_singleton {a b : Symbol} : b ∈ singleton a ↔ b = a := List.mem_singleton

/-- The set of the symbols that are in one of two sets. -/
def union (s t : SymbolSet) : SymbolSet := t.members.foldr insert s

instance : Union SymbolSet := ⟨union⟩

@[simp] theorem mem_union {a : Symbol} {s t : SymbolSet} : a ∈ s ∪ t ↔ a ∈ s ∨ a ∈ t := by
  have key : ∀ l : List Symbol, a ∈ l.foldr insert s ↔ a ∈ s ∨ a ∈ l := by
    intro l
    induction l with
    | nil => simp
    | cons b rest ih =>
      simp only [List.foldr_cons, mem_insert, ih, List.mem_cons]
      constructor
      · rintro (h | h | h) <;> simp [h]
      · rintro (h | h | h) <;> simp [h]
  exact key t.members

/-- The set of the members that pass a test. -/
def filter (p : Symbol → Bool) (s : SymbolSet) : SymbolSet :=
  ⟨s.members.filter p, s.ascending.filter p⟩

@[simp] theorem mem_filter {a : Symbol} {p : Symbol → Bool} {s : SymbolSet} :
    a ∈ s.filter p ↔ a ∈ s ∧ p a = true := List.mem_filter

/-- The set of the symbols that are in both of two sets. -/
def inter (s t : SymbolSet) : SymbolSet := s.filter fun a => decide (a ∈ t)

instance : Inter SymbolSet := ⟨inter⟩

@[simp] theorem mem_inter {a : Symbol} {s t : SymbolSet} : a ∈ s ∩ t ↔ a ∈ s ∧ a ∈ t := by
  simp [Inter.inter, inter]

/-- The set without a symbol. -/
def erase (s : SymbolSet) (a : Symbol) : SymbolSet := s.filter fun b => decide (b ≠ a)

@[simp] theorem mem_erase {a b : Symbol} {s : SymbolSet} : b ∈ s.erase a ↔ b ∈ s ∧ b ≠ a := by
  simp [erase]

/-- The number of members. -/
def size (s : SymbolSet) : Nat := s.members.length

/-- Every member of the one set is one of the other. -/
instance : HasSubset SymbolSet := ⟨fun s t => ∀ a, a ∈ s → a ∈ t⟩

theorem subset_def {s t : SymbolSet} : s ⊆ t ↔ ∀ a, a ∈ s → a ∈ t := Iff.rfl

/-- A set lists each member once. -/
theorem nodup_members (s : SymbolSet) : s.members.Nodup := by
  refine s.ascending.imp ?_
  intro a b h e
  subst e
  exact Symbol.lt_irrefl _ h

end SymbolSet

end PredictiveParsing
