import PredictiveParsing.Lookahead.Follow
import PredictiveParsing.Proofs.Lookahead.First

/-!
# FOLLOW sets are closed

Where a variable other than the start symbol occurs, its FOLLOW set holds the
FIRST set of the next symbol, less the empty string, and the FOLLOW set of the
owner of the body if the body can end there. What it holds are terminals of
bodies.
-/

namespace PredictiveParsing.Grammar

variable {g : Grammar}

/-- The occurrences in one body. -/
theorem mem_occurrencesIn {b : Symbol} {body : Body} {o : Occurrence} :
    o ∈ g.occurrencesIn b body ↔ ∃ left rest, body = left ++ o.subject :: rest ∧
      o.subject ∈ g.vars ∧ o = ⟨b, o.subject, rest.head?⟩ := by
  induction body with
  | nil =>
    constructor
    · intro h
      exact absurd h List.not_mem_nil
    · intro ⟨left, rest, h, _⟩
      exact absurd h.symm (List.append_ne_nil_of_right_ne_nil _ (List.cons_ne_nil _ _))
  | cons x tail ih =>
    have later : (∃ left rest, tail = left ++ o.subject :: rest ∧ o.subject ∈ g.vars ∧
        o = ⟨b, o.subject, rest.head?⟩) → ∃ left rest, x :: tail = left ++ o.subject :: rest ∧
        o.subject ∈ g.vars ∧ o = ⟨b, o.subject, rest.head?⟩ := by
      intro ⟨left, rest, htail, hv, ho⟩
      exact ⟨x :: left, rest, by rw [htail, List.cons_append], hv, ho⟩
    have split : (∃ left rest, x :: tail = left ++ o.subject :: rest ∧ o.subject ∈ g.vars ∧
        o = ⟨b, o.subject, rest.head?⟩) → (x ∈ g.vars ∧ o = ⟨b, x, tail.head?⟩) ∨
        ∃ left rest, tail = left ++ o.subject :: rest ∧ o.subject ∈ g.vars ∧
          o = ⟨b, o.subject, rest.head?⟩ := by
      intro ⟨left, rest, hbody, hv, ho⟩
      cases left with
      | nil =>
        obtain ⟨hx, htail⟩ := List.cons.inj hbody
        rw [← hx] at hv ho
        rw [← htail] at ho
        exact .inl ⟨hv, ho⟩
      | cons y left => exact .inr ⟨left, rest, (List.cons.inj hbody).2, hv, ho⟩
    rw [occurrencesIn]
    by_cases hx : x ∈ g.vars
    · rw [if_pos hx, List.mem_cons, ih]
      constructor
      · intro h
        rcases h with ho | h
        · rw [ho]
          exact ⟨[], tail, rfl, hx, rfl⟩
        · exact later h
      · intro h
        rcases split h with ⟨-, ho⟩ | h
        · exact .inl ho
        · exact .inr h
    · rw [if_neg hx, ih]
      constructor
      · exact later
      · intro h
        rcases split h with ⟨hv, -⟩ | h
        · exact absurd hv hx
        · exact h

/-- The occurrences of variables in all bodies. -/
theorem mem_occurrences {b x : Symbol} {next : Option Symbol} :
    ⟨b, x, next⟩ ∈ g.occurrences ↔ ∃ body ∈ g.rulesOf b, ∃ left rest,
      body = left ++ x :: rest ∧ x ∈ g.vars ∧ next = rest.head? := by
  rw [occurrences, List.mem_flatMap]
  constructor
  · intro ⟨a, _, ho⟩
    obtain ⟨body, hbody, ho⟩ := List.mem_flatMap.mp ho
    obtain ⟨left, rest, hsplit, hv, ho⟩ := mem_occurrencesIn.mp ho
    have howner := congrArg Occurrence.owner ho
    have hnext := congrArg Occurrence.next ho
    dsimp only at howner hnext hsplit hv
    rw [howner]
    exact ⟨body, hbody, left, rest, hsplit, hv, hnext⟩
  · intro ⟨body, hbody, left, rest, hsplit, hv, hnext⟩
    refine ⟨b, mem_displayOrder.mpr (mem_vars_of_mem_rulesOf hbody), ?_⟩
    refine List.mem_flatMap.mpr ⟨body, hbody, mem_occurrencesIn.mpr ⟨left, rest, hsplit, hv, ?_⟩⟩
    rw [hnext]

/-- The members of a FOLLOW set that is there. -/
theorem members_of_get? {t : FollowTable} {a : Symbol} {s : SymbolSet}
    (h : t.get? a = some (some s)) : t.members a = s := by
  rw [FollowTable.members, h]
  rfl

/-- What holds of the FOLLOW sets after every pass. -/
structure FollowSets (g : Grammar) (t : FollowTable) : Prop where
  /-- The variables have entries. -/
  keys : t.keys = g.vars.members
  /-- A variable other than the start symbol has a set. -/
  exists_set : ∀ a ∈ g.vars, a ≠ g.start → ∃ s, t.get? a = some (some s)
  /-- Members are no variables, not the empty string, and stand in a body. -/
  sound : ∀ a s, t.get? a = some (some s) → ∀ x ∈ s, x ∉ g.vars ∧ x ≠ .epsilon ∧ g.Occurs x

/-- Members of a FOLLOW set are terminals of bodies. -/
theorem FollowSets.mem_members {t : FollowTable} (h : g.FollowSets t) {a x : Symbol}
    (hx : x ∈ t.members a) : x ∉ g.vars ∧ x ≠ .epsilon ∧ g.Occurs x := by
  rw [FollowTable.members] at hx
  cases ht : t.get? a with
  | none =>
    rw [ht] at hx
    exact absurd hx (SymbolSet.not_mem_empty x)
  | some entry =>
    rw [ht] at hx
    cases entry with
    | none => exact absurd hx (SymbolSet.not_mem_empty x)
    | some s => exact h.sound a s ht x hx

/-- Before the first pass all sets are empty. -/
theorem followSets_initialFollow (g : Grammar) : g.FollowSets g.initialFollow := by
  refine ⟨?_, fun a ha hne => ?_, fun a s hs x hx => ?_⟩
  · rw [initialFollow, SymbolTable.tabulate, SymbolTable.keys, List.map_map]
    exact List.map_id g.vars.members
  · refine ⟨∅, ?_⟩
    rw [initialFollow, SymbolTable.get?_tabulate, if_pos ha, if_neg hne]
  · rw [initialFollow, SymbolTable.get?_tabulate] at hs
    split at hs
    · split at hs
      · cases hs
      · rw [← Option.some.inj (Option.some.inj hs)] at hx
        exact absurd hx (SymbolSet.not_mem_empty x)
    · cases hs

/-- What an occurrence contributes are terminals of bodies. -/
theorem FollowSets.contribution (hg : g.Closed) {t : FollowTable} (h : g.FollowSets t)
    {o : Occurrence} (ho : o ∈ g.occurrences) {x : Symbol}
    (hx : x ∈ t.contribution g.firstTable o) : x ∉ g.vars ∧ x ≠ .epsilon ∧ g.Occurs x := by
  obtain ⟨b, y, next⟩ := o
  obtain ⟨body, hbody, left, rest, hsplit, -, hnext⟩ := mem_occurrences.mp ho
  rw [FollowTable.contribution, SymbolSet.mem_union] at hx
  rcases hx with hx | hx
  · rw [Occurrence.successors] at hx
    cases rest with
    | nil =>
      rw [hnext] at hx
      exact absurd hx (SymbolSet.not_mem_empty x)
    | cons z rest =>
      rw [hnext] at hx
      obtain ⟨hlookup, hne⟩ := SymbolSet.mem_erase.mp hx
      obtain ⟨n, hn⟩ := hg.firstSets.leads hg hlookup
      refine ⟨hn.notMem, hne, hn.eq_or_occurs.elim (fun e => ?_) id⟩
      rw [e]
      refine ⟨b, body, hbody, ?_⟩
      rw [hsplit]
      exact List.mem_append_right _ (List.mem_cons_of_mem _ List.mem_cons_self)
  · split at hx
    · exact h.mem_members hx
    · exact absurd hx (SymbolSet.not_mem_empty x)

/-- A contribution keeps what holds of the sets. -/
theorem FollowSets.absorb (hg : g.Closed) {t : FollowTable} (h : g.FollowSets t)
    {o : Occurrence} (ho : o ∈ g.occurrences) :
    g.FollowSets (t.absorb g.firstTable o) := by
  rw [FollowTable.absorb]
  split
  · next s hs =>
    have hkey : o.subject ∈ t.keys := SymbolTable.mem_keys_iff.mpr ⟨_, hs⟩
    refine ⟨?_, fun a ha hne => ?_, fun a u hu x hx => ?_⟩
    · rw [SymbolTable.keys_set, if_pos hkey, h.keys]
    · rw [SymbolTable.get?_set]
      split
      · exact ⟨_, rfl⟩
      · exact h.exists_set a ha hne
    · rw [SymbolTable.get?_set] at hu
      split at hu
      · rw [← Option.some.inj (Option.some.inj hu), SymbolSet.mem_union] at hx
        rcases hx with hx | hx
        · exact h.sound o.subject s hs x hx
        · exact h.contribution hg ho hx
      · exact h.sound a u hu x hx
  · exact h

/-- The size of the FOLLOW set of an entry. -/
def followSize (entry : Option SymbolSet) : Nat := (entry.getD ∅).size

/-- An occurrence contributes nothing, or the sets grow. -/
theorem followAbsorb_eq_or_weight_lt (first : FirstTable) (t : FollowTable) (o : Occurrence) :
    t.absorb first o = t ∨ t.weight followSize < (t.absorb first o).weight followSize := by
  rw [FollowTable.absorb]
  split
  · next s hs =>
    have hweight := SymbolTable.weight_set followSize hs (some (s ∪ t.contribution first o))
    have hold : followSize (some s) = s.size := rfl
    have hnew : followSize (some (s ∪ t.contribution first o)) =
        (s ∪ t.contribution first o).size := rfl
    rcases SymbolSet.union_eq_self_or_size_lt s (t.contribution first o) with heq | hlt
    · refine .inl ?_
      rw [heq]
      exact SymbolTable.set_eq_self hs
    · exact .inr (by omega)
  · exact .inl rfl

/-- The sets stay within the bound. -/
theorem FollowSets.weight_le {t : FollowTable} (h : g.FollowSets t) :
    t.weight followSize ≤ g.analysisBound := by
  have hsize : ∀ a entry, t.get? a = some entry →
      followSize entry ≤ g.analysedSymbols.size + g.bodySymbols := by
    intro a entry hentry
    cases entry with
    | none => exact Nat.zero_le _
    | some s => exact size_le_of_analysed fun x hx => .inr (h.sound a s hentry x hx).2.2
  have hweight := SymbolTable.weight_le hsize
  have hvars : g.vars.size ≤ g.analysedSymbols.size :=
    SymbolSet.size_le_of_subset fun a ha => mem_analysedSymbols_of_mem_vars ha
  rw [h.keys] at hweight
  exact Nat.le_trans hweight (Nat.mul_le_mul_right _ hvars)

/-- The FOLLOW sets of a closed grammar are justified. -/
theorem Closed.followSets (hg : g.Closed) : g.FollowSets g.followTable :=
  stabilize_induction
    (foldl_keeps fun _ ht _ ho => ht.absorb hg ho) _ _ (followSets_initialFollow g)

/-- The FOLLOW sets of a closed grammar demand nothing more. -/
theorem Closed.absorb_followTable (hg : g.Closed) :
    ∀ o ∈ g.occurrences, g.followTable.absorb g.firstTable o = g.followTable :=
  stabilize_pass (fun _ ht _ ho => FollowSets.absorb hg ht ho)
    (fun t _ o _ => followAbsorb_eq_or_weight_lt g.firstTable t o)
    (fun _ ht => ht.weight_le) g.initialFollow (followSets_initialFollow g)

/-- The FOLLOW set of a variable holds what its occurrences contribute. -/
theorem Closed.contribution_subset (hg : g.Closed) {o : Occurrence} (ho : o ∈ g.occurrences)
    (hne : o.subject ≠ g.start) :
    g.followTable.contribution g.firstTable o ⊆ g.followTable.members o.subject := by
  obtain ⟨b, x, next⟩ := o
  obtain ⟨body, -, left, rest, -, hv, -⟩ := mem_occurrences.mp ho
  obtain ⟨s, hs⟩ := hg.followSets.exists_set x hv hne
  have hfixed := hg.absorb_followTable _ ho
  have hget : (g.followTable.absorb g.firstTable ⟨b, x, next⟩).get? x =
      some (some (s ∪ g.followTable.contribution g.firstTable ⟨b, x, next⟩)) := by
    rw [FollowTable.absorb]
    dsimp only
    rw [hs]
    dsimp only
    rw [SymbolTable.get?_set, if_pos rfl]
  rw [hfixed, hs] at hget
  have heq : s = s ∪ g.followTable.contribution g.firstTable ⟨b, x, next⟩ :=
    Option.some.inj (Option.some.inj hget)
  intro t ht
  rw [members_of_get? hs, heq]
  exact SymbolSet.mem_union.mpr (.inr ht)

/-- What a FOLLOW set has after an occurrence has contributed, it had before
or the occurrence has contributed it, to a variable that has a set. -/
theorem mem_members_absorb {t : FollowTable} {first : FirstTable} {o : Occurrence}
    {a x : Symbol} (h : x ∈ (t.absorb first o).members a) :
    x ∈ t.members a ∨
      a = o.subject ∧ t.get? o.subject ≠ some none ∧ x ∈ t.contribution first o := by
  rw [FollowTable.absorb] at h
  split at h
  · next s hs =>
    rw [FollowTable.members, SymbolTable.get?_set] at h
    split at h
    · next e =>
      rcases SymbolSet.mem_union.mp h with hold | hnew
      · refine .inl ?_
        rw [FollowTable.members, ← e, hs]
        exact hold
      · refine .inr ⟨e.symm, ?_, hnew⟩
        rw [hs]
        exact fun he => by cases he
    · exact .inl h
  · exact .inl h

/-- Before the first pass the start symbol has no FOLLOW set. -/
theorem get?_initialFollow_start (g : Grammar) : g.initialFollow.get? g.start = some none := by
  rw [initialFollow, SymbolTable.get?_tabulate, if_pos g.valid.start_mem, if_pos rfl]

/-- No occurrence gives a FOLLOW set to a variable that has none. -/
theorem get?_absorb_eq_none {t : FollowTable} {a : Symbol} (h : t.get? a = some none)
    (first : FirstTable) (o : Occurrence) : (t.absorb first o).get? a = some none := by
  rw [FollowTable.absorb]
  split
  · next s hs =>
    have hne : o.subject ≠ a := by
      rintro rfl
      rw [h] at hs
      cases hs
    rw [SymbolTable.get?_set, if_neg hne, h]
  · exact h

/-- The start symbol has no FOLLOW set. -/
theorem get?_followTable_start (g : Grammar) : g.followTable.get? g.start = some none := by
  have keep : ∀ table : FollowTable, table.get? g.start = some none → ∀ o ∈ g.occurrences,
      (table.absorb g.firstTable o).get? g.start = some none :=
    fun _ htable o _ => get?_absorb_eq_none htable g.firstTable o
  exact stabilize_induction (foldl_keeps keep) _ _ (get?_initialFollow_start g)

/-- Before the first pass no FOLLOW set has a member. -/
theorem members_initialFollow (a : Symbol) : g.initialFollow.members a = ∅ := by
  rw [FollowTable.members, initialFollow, SymbolTable.get?_tabulate]
  split
  · split <;> rfl
  · rfl

/-- What holds of everything that occurrences contribute to sets of which it
holds already, holds of all members of FOLLOW sets. -/
theorem followTable_induction (holds : Symbol → Symbol → Prop)
    (contributed : ∀ table : FollowTable, (∀ a, ∀ t ∈ table.members a, holds a t) →
      ∀ o ∈ g.occurrences, o.subject ≠ g.start →
        ∀ t ∈ table.contribution g.firstTable o, holds o.subject t)
    {a t : Symbol} (ht : t ∈ g.followTable.members a) : holds a t := by
  let kept : FollowTable → Prop := fun table =>
    table.get? g.start = some none ∧ ∀ a, ∀ t ∈ table.members a, holds a t
  have keep : ∀ table, kept table → ∀ o ∈ g.occurrences, kept (table.absorb g.firstTable o) := by
    intro table ⟨hstart, htable⟩ o ho
    refine ⟨get?_absorb_eq_none hstart g.firstTable o, fun a t ht => ?_⟩
    rcases mem_members_absorb ht with hold | ⟨rfl, hset, hnew⟩
    · exact htable a t hold
    · refine contributed table htable o ho (fun e => hset ?_) t hnew
      rw [e]
      exact hstart
  have start : kept g.initialFollow := by
    refine ⟨get?_initialFollow_start g, fun a t ht => ?_⟩
    rw [members_initialFollow] at ht
    exact absurd ht (SymbolSet.not_mem_empty t)
  exact (stabilize_induction (foldl_keeps keep) (g.analysisBound + 1) g.initialFollow start).2 a t ht

/-- The symbols with which the next symbol can start follow a variable. -/
theorem Closed.mem_follow_of_next (hg : g.Closed) {b x y t : Symbol} {left rest : Body}
    (hbody : left ++ x :: y :: rest ∈ g.rulesOf b) (hx : x ∈ g.vars) (hne : x ≠ g.start)
    (ht : t ∈ g.firstTable.lookup y) (hempty : t ≠ .epsilon) : t ∈ g.followTable.members x := by
  have ho : ⟨b, x, some y⟩ ∈ g.occurrences :=
    mem_occurrences.mpr ⟨_, hbody, left, y :: rest, rfl, hx, rfl⟩
  refine hg.contribution_subset ho hne t (SymbolSet.mem_union.mpr (.inl ?_))
  exact SymbolSet.mem_erase.mpr ⟨ht, hempty⟩

/-- What follows the owner of a body follows the variable at its end. -/
theorem Closed.mem_follow_of_last (hg : g.Closed) {b x t : Symbol} {left : Body}
    (hbody : left ++ [x] ∈ g.rulesOf b) (hx : x ∈ g.vars) (hne : x ≠ g.start)
    (ht : t ∈ g.followTable.members b) : t ∈ g.followTable.members x := by
  have ho : ⟨b, x, none⟩ ∈ g.occurrences :=
    mem_occurrences.mpr ⟨_, hbody, left, [], rfl, hx, rfl⟩
  refine hg.contribution_subset ho hne t (SymbolSet.mem_union.mpr (.inr ?_))
  rw [Occurrence.endsBody, if_pos rfl]
  exact ht

/-- What follows the owner of a body follows a variable whose next symbol can
vanish. -/
theorem Closed.mem_follow_of_vanishing (hg : g.Closed) {b x y t : Symbol} {left rest : Body}
    (hbody : left ++ x :: y :: rest ∈ g.rulesOf b) (hx : x ∈ g.vars) (hne : x ≠ g.start)
    (hy : .epsilon ∈ g.firstTable.lookup y) (ht : t ∈ g.followTable.members b) :
    t ∈ g.followTable.members x := by
  have ho : ⟨b, x, some y⟩ ∈ g.occurrences :=
    mem_occurrences.mpr ⟨_, hbody, left, y :: rest, rfl, hx, rfl⟩
  refine hg.contribution_subset ho hne t (SymbolSet.mem_union.mpr (.inr ?_))
  have hends : Occurrence.endsBody g.firstTable ⟨b, x, some y⟩ = true := decide_eq_true hy
  rw [if_pos hends]
  exact ht

end PredictiveParsing.Grammar
