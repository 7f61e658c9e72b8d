import PredictiveParsing.Proofs.Lookahead.Follow

/-!
# FOLLOW sets are exact

A symbol follows a variable if the next symbol of some body leads to it, or if
the variable ends some body, or stands before a symbol that leads to the empty
string, and the symbol follows the owner of that body. The start symbol is
followed by nothing and hands nothing on. The FOLLOW sets hold what follows in
this sense, and nothing else: they demand nothing more, and never hold more
than this justifies.
-/

namespace PredictiveParsing.Grammar

/-- What follows a variable, as far as the bodies tell by one symbol. -/
inductive Follows (g : Grammar) : Symbol → Symbol → Prop
  /-- The next symbol leads to it. -/
  | next {b x y t : Symbol} {left rest : Body} {n : Nat}
      (mem : left ++ x :: y :: rest ∈ g.rulesOf b) (var : x ∈ g.vars) (ne : x ≠ g.start)
      (leads : g.Leads n y t) (notEmpty : t ≠ .epsilon) : Follows g x t
  /-- The variable ends a body, and it follows the owner. -/
  | last {b x t : Symbol} {left : Body} (mem : left ++ [x] ∈ g.rulesOf b) (var : x ∈ g.vars)
      (ne : x ≠ g.start) (outer : Follows g b t) : Follows g x t
  /-- The next symbol leads to the empty string, and it follows the owner. -/
  | vanishing {b x y t : Symbol} {left rest : Body} {n : Nat}
      (mem : left ++ x :: y :: rest ∈ g.rulesOf b) (var : x ∈ g.vars) (ne : x ≠ g.start)
      (leads : g.Leads n y .epsilon) (outer : Follows g b t) : Follows g x t

variable {g : Grammar} {x t : Symbol}

/-- What an occurrence contributes follows its variable, if the sets hold
only what follows. -/
theorem Closed.follows_of_contribution (hg : g.Closed) {table : FollowTable}
    (htable : ∀ a, ∀ t ∈ table.members a, g.Follows a t) {o : Occurrence}
    (ho : o ∈ g.occurrences) (hne : o.subject ≠ g.start)
    (ht : t ∈ table.contribution g.firstTable o) : g.Follows o.subject t := by
  obtain ⟨b, x, after⟩ := o
  obtain ⟨body, hbody, left, rest, rfl, hvar, rfl⟩ := mem_occurrences.mp ho
  rw [FollowTable.contribution, SymbolSet.mem_union] at ht
  cases rest with
  | nil =>
    rcases ht with ht | ht
    · exact absurd ht (SymbolSet.not_mem_empty t)
    · have hends : Occurrence.endsBody g.firstTable ⟨b, x, none⟩ = true := rfl
      rw [List.head?_nil, if_pos hends] at ht
      exact .last hbody hvar hne (htable b t ht)
  | cons y rest =>
    rcases ht with ht | ht
    · obtain ⟨hlookup, hempty⟩ := SymbolSet.mem_erase.mp ht
      obtain ⟨n, hn⟩ := hg.firstSets.leads hg hlookup
      exact .next hbody hvar hne hn hempty
    · split at ht
      · next hends =>
        obtain ⟨n, hn⟩ := hg.firstSets.leads hg (of_decide_eq_true hends)
        exact .vanishing hbody hvar hne hn (htable b t ht)
      · exact absurd ht (SymbolSet.not_mem_empty t)

/-- What the next symbol leads to is in its FIRST set. -/
theorem Closed.mem_lookup_of_next (hg : g.Closed) {b y : Symbol} {left rest : Body} {n : Nat}
    (mem : left ++ x :: y :: rest ∈ g.rulesOf b) (leads : g.Leads n y t) :
    t ∈ g.firstTable.lookup y :=
  hg.mem_lookup_of_leads leads (hg.body_declared _ _ mem _
    (List.mem_append_right _ (List.mem_cons_of_mem _ List.mem_cons_self)))

/-- What follows a variable is in its FOLLOW set. -/
theorem Closed.mem_follow_of_follows (hg : g.Closed) (h : g.Follows x t) :
    t ∈ g.followTable.members x := by
  induction h with
  | next mem var ne leads notEmpty =>
    exact hg.mem_follow_of_next mem var ne (hg.mem_lookup_of_next mem leads) notEmpty
  | last mem var ne _ ih => exact hg.mem_follow_of_last mem var ne ih
  | vanishing mem var ne leads _ ih =>
    exact hg.mem_follow_of_vanishing mem var ne (hg.mem_lookup_of_next mem leads) ih

/-- The FOLLOW set of a variable of a closed grammar holds what follows it. -/
theorem Closed.mem_follow_iff (hg : g.Closed) :
    t ∈ g.followTable.members x ↔ g.Follows x t :=
  ⟨fun h => followTable_induction g.Follows
    (fun _ htable _ ho hne _ hnew => hg.follows_of_contribution htable ho hne hnew) h,
    hg.mem_follow_of_follows⟩

end PredictiveParsing.Grammar
