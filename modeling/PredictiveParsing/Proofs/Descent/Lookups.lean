import PredictiveParsing.Proofs.Descent.Moves
import PredictiveParsing.Proofs.Grammar.Numbering

/-!
# A descent finds what it looks up

A selected alternative is one of those of the variable, every variable has
the number of its first rule, and the node of a frame is in the arena, so
that a further node can be attached to it. The units that an error lists can
be collected if the terminals are given units without parts.
-/

namespace PredictiveParsing.Parser

/-- What is looked up in a descent is there. -/
structure DescentLookups (p : Parser) : Prop where
  /-- A selected alternative is there. -/
  selected : ∀ a unit i, p.select a unit = some i →
    ∃ body, (p.grammar.rulesOf a)[i]? = some body
  /-- Every alternative has a first symbol. -/
  leading : ∀ a, ∀ body ∈ p.grammar.rulesOf a, body ≠ []
  /-- Every variable has the number of its first rule. -/
  numbered : ∀ a ∈ p.grammar.vars, (p.grammar.firstNumber? a).isSome = true
  /-- Where the descent stands, a further node can be attached. -/
  attached : ∀ s node unread below, p.Visits s (⟨node, unread⟩ :: below) → ∀ label token,
    (s.tree.addNode label token).1.attach node (s.tree.addNode label token).2 =
      ⟨s.tree.grow node label token, none⟩
  /-- The units of symbols can be collected. -/
  collected : ∀ a, (p.unitOf a).isScalar = true

variable {p : Parser} {s : ParseState}

/-- The nodes of all frames are in the arena. -/
theorem node_lt_size_of_visits {stack : List Frame} (h : p.Visits s stack) :
    ∀ frame ∈ stack, frame.node < s.tree.size := by
  refine @Visits.invariant p (fun s stack => ∀ frame ∈ stack, frame.node < s.tree.size) ?_ ?_
    s stack h
  · intro k body _ _ frame hframe
    rw [List.mem_singleton.mp hframe]
    exact Nat.zero_lt_one
  · intro s stack next frames _ hs hm
    cases hm with
    | leave => exact fun frame hframe => hs frame (List.mem_cons_of_mem _ hframe)
    | vanish => exact List.forall_mem_cons.mpr (List.forall_mem_cons.mp hs)
    | enter =>
      obtain ⟨hnode, hbelow⟩ := List.forall_mem_cons.mp hs
      dsimp only at hnode ⊢
      rw [ParseTree.size_grow]
      refine List.forall_mem_cons.mpr ⟨Nat.lt_succ_self _, List.forall_mem_cons.mpr ⟨?_, ?_⟩⟩
      · exact Nat.lt_succ_of_lt hnode
      · exact fun frame hframe => Nat.lt_succ_of_lt (hbelow frame hframe)
    | take =>
      obtain ⟨hnode, hbelow⟩ := List.forall_mem_cons.mp hs
      dsimp only at hnode ⊢
      rw [ParseTree.size_grow]
      refine List.forall_mem_cons.mpr ⟨Nat.lt_succ_of_lt hnode, ?_⟩
      exact fun frame hframe => Nat.lt_succ_of_lt (hbelow frame hframe)

/-- A further node is attached to a node that is there. -/
theorem attach_addNode {t : ParseTree} {node : Nat} (h : node < t.size) (label : Symbol)
    (token : Option Token) :
    (t.addNode label token).1.attach node (t.addNode label token).2 =
      ⟨t.grow node label token, none⟩ := by
  have hsize : (t.addNode label token).1.size = t.size + 1 := Array.size_push _
  have hchild : (t.addNode label token).2 < (t.addNode label token).1.size := by
    rw [hsize]
    exact Nat.lt_succ_self t.size
  rw [ParseTree.attach, if_pos hchild, if_pos (by omega)]
  rfl

/-- A unit that a map gives to a name is one of the map. -/
theorem exists_mem_of_unit? {units : UnitMap} {name : String} {unit : LexicalUnit}
    (h : units.unit? name = some unit) : ∃ entry ∈ units, entry.2 = unit := by
  induction units with
  | nil => cases h
  | cons entry rest ih =>
    rw [UnitMap.unit?] at h
    split at h
    · exact ⟨entry, List.mem_cons_self, Option.some.inj h⟩
    · obtain ⟨found, hfound, hunit⟩ := ih h
      exact ⟨found, List.mem_cons_of_mem _ hfound, hunit⟩

/-- The units of symbols have no parts if those of the map have none. -/
theorem isScalar_unitOf (h : ∀ units ∈ p.units, ∀ entry ∈ units, entry.2.isScalar = true)
    (a : Symbol) : (p.unitOf a).isScalar = true := by
  rw [unitOf]
  split
  · rfl
  · split
    · rfl
    · next units hunits =>
      cases hunit : units.unit? a.name with
      | none => rfl
      | some unit =>
        obtain ⟨entry, hentry, rfl⟩ := exists_mem_of_unit? hunit
        exact h units hunits entry hentry

/-- No lookup of a descent fails, whatever the grammar and the tokens. -/
theorem descentLookups (h : ∀ units ∈ p.units, ∀ entry ∈ units, entry.2.isScalar = true) :
    p.DescentLookups where
  selected := fun _ _ _ hi => exists_body_of_select hi
  leading := fun a body hb => (p.grammar.valid.proper a body hb).ne_nil
  numbered := fun _ ha => Grammar.isSome_firstNumber? ha
  attached := fun _ _ _ _ hv =>
    attach_addNode (node_lt_size_of_visits hv _ List.mem_cons_self)
  collected := isScalar_unitOf h

end PredictiveParsing.Parser
