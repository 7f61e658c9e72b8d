import PredictiveParsing.Proofs.Grammar.Validity

/-!
# Left corners and left recursion

A symbol is a left corner of a nonterminal if a form that begins with it is
derived from the nonterminal in at least one step. Symbols of a body whose
predecessors vanish are left corners, and left corners of left corners are.
A nonterminal that is a left corner of itself is left-recursive, be it
directly, through others, or behind a prefix that vanishes. Ranks of the
symbols tell that there is none: they fall along the nonterminals at the front
of all bodies.
-/

namespace PredictiveParsing

variable {P : Productions}

/-- A form that begins with a symbol is derived in at least one step. -/
def LeftCorner (P : Productions) (a x : Symbol) : Prop :=
  ∃ rest, Relation.TransGen (Rewrites P) [a] (x :: rest)

/-- A symbol from which a form is derived that begins with it again. -/
def LeftRecursive (P : Productions) (a : Symbol) : Prop := LeftCorner P a a

/-- Left corners of left corners are left corners. -/
theorem LeftCorner.trans {a b x : Symbol} (ha : LeftCorner P a b) (hb : LeftCorner P b x) :
    LeftCorner P a x := by
  obtain ⟨right, ha⟩ := ha
  obtain ⟨rest, hb⟩ := hb
  have hon : Relation.TransGen (Rewrites P) ([b] ++ right) ((x :: rest) ++ right) :=
    hb.lift (· ++ right) fun _ _ (step : Rewrites P _ _) => step.around [] right
  exact ⟨rest ++ right, ha.trans hon⟩

/-- What a vanishing prefix of a body leaves in front is a left corner. -/
theorem leftCorner_of_body {n : String} {x : Symbol} {read unread : Body}
    (hbody : read ++ x :: unread ∈ P (.nonterminal n)) (hread : Yields P read [])
    (hx : x ≠ .epsilon) : LeftCorner P (.nonterminal n) x := by
  have step := Rewrites.apply [] [] hbody
  have hspelled : Body.spelled (read ++ x :: unread) =
      Body.spelled read ++ x :: Body.spelled unread := by
    rw [Body.spelled, List.filter_append]
    cases x with
    | epsilon => exact absurd rfl hx
    | terminal t => rfl
    | nonterminal m => rfl
  have hvanish := hread.derives.around [] (x :: Body.spelled unread)
  rw [hspelled, List.append_nil, List.nil_append, List.nil_append] at step
  exact ⟨_, Relation.TransGen.head' step hvanish⟩

/-- A step from a symbol alone leads to an alternative of it. -/
theorem exists_body_of_rewrites {a : Symbol} {form : List Symbol} (h : Rewrites P [a] form) :
    ∃ body ∈ P a, form = Body.spelled body := by
  generalize hfirst : [a] = first at h
  cases h with
  | @apply left right n body mem =>
    obtain ⟨rfl, he⟩ | ⟨_, -, he⟩ := List.cons_eq_append_iff.mp hfirst
    · obtain ⟨ha, rfl⟩ := List.cons.inj he
      rw [ha] at mem
      exact ⟨body, mem, by rw [List.nil_append, List.append_nil]⟩
    · cases (List.append_eq_nil_iff.mp he.symm).2

/-- A body other than the empty string begins with a symbol. -/
def Heads (P : Productions) (a x : Symbol) : Prop :=
  ∃ body ∈ P a, body ≠ epsilonBody ∧ body.head? = some x

namespace Grammar

variable {g : Grammar}

/-- No alternative other than the empty string begins with a symbol that can
be replaced by the empty string. -/
def HeadsStay (g : Grammar) : Prop :=
  ∀ a x, Heads g.rulesOf a x → epsilonBody ∉ g.rulesOf x

/-- Whether the nonterminals in a body up to its first terminal have lower
ranks than the owner. -/
def ranksFront (rank : Symbol → Nat) (a : Symbol) (body : Body) : Bool :=
  (body.takeWhile Symbol.isNonterminal).all fun x => decide (rank x < rank a)

/-- The front of two parts is that of the first one, with that of the second
one if the first one has nothing else. -/
theorem mem_takeWhile_append {left right : List Symbol} {y : Symbol} :
    y ∈ (left ++ right).takeWhile Symbol.isNonterminal ↔
      y ∈ left.takeWhile Symbol.isNonterminal ∨
        (∀ z ∈ left, z.isNonterminal = true) ∧ y ∈ right.takeWhile Symbol.isNonterminal := by
  induction left with
  | nil => simp
  | cons z left ih =>
    cases hz : z.isNonterminal with
    | false => simp [hz]
    | true => simp [hz, ih, or_assoc]

/-- Where the nonterminals at the front of all bodies have lower ranks, nothing
is left-recursive, even behind symbols that vanish. -/
theorem not_leftRecursive_of_ranks (rank : Symbol → Nat)
    (h : (g.rules.entries.all fun entry => entry.2.all (ranksFront rank entry.1)) = true) :
    ∀ a, a.isNonterminal = true → ¬LeftRecursive g.rulesOf a := by
  have ranked : ∀ a, ∀ body ∈ g.rulesOf a,
      ∀ x ∈ (Body.spelled body).takeWhile Symbol.isNonterminal, rank x < rank a := by
    intro a body hbody x hx
    have hpass := Components.forall_mem_rulesOf_of_entries (ranksFront rank) h a body hbody
    by_cases hne : body = epsilonBody
    · rw [hne] at hx
      cases hx
    · rw [spelled_of_mem_rulesOf hbody hne] at hx
      exact of_decide_eq_true (List.all_eq_true.mp hpass x hx)
  -- steps keep the ranks at the front below a bound
  have bounded : ∀ bound, ∀ u v, Rewrites g.rulesOf u v →
      (∀ y ∈ u.takeWhile Symbol.isNonterminal, rank y < bound) →
      ∀ y ∈ v.takeWhile Symbol.isNonterminal, rank y < bound := by
    intro bound u v step hu y hy
    cases step with
    | @apply left right n body mem =>
      have hfront : ∀ z, (∀ z ∈ left, z.isNonterminal = true) →
          z ∈ (.nonterminal n :: right).takeWhile Symbol.isNonterminal → rank z < bound :=
        fun z hleft hz => hu z (mem_takeWhile_append.mpr (.inr ⟨hleft, hz⟩))
      rcases mem_takeWhile_append.mp hy with hy | ⟨hleft, hy⟩
      · exact hu y (mem_takeWhile_append.mpr (.inl hy))
      · rcases mem_takeWhile_append.mp hy with hy | ⟨-, hy⟩
        · exact Nat.lt_trans (ranked _ body mem y hy)
            (hfront (.nonterminal n) hleft List.mem_cons_self)
        · exact hfront y hleft (List.mem_cons_of_mem _ hy)
  intro a ha ⟨rest, hrec⟩
  have hbelow : ∀ form, Relation.TransGen (Rewrites g.rulesOf) [a] form →
      ∀ y ∈ form.takeWhile Symbol.isNonterminal, rank y < rank a := by
    intro form hform
    induction hform with
    | single step =>
      obtain ⟨body, hbody, rfl⟩ := exists_body_of_rewrites step
      exact ranked a body hbody
    | tail _ step ih => exact bounded _ _ _ step ih
  have hself : a ∈ (a :: rest).takeWhile Symbol.isNonterminal := by
    rw [List.takeWhile_cons_of_pos ha]
    exact List.mem_cons_self
  exact Nat.lt_irrefl _ (hbelow _ hrec a hself)

end Grammar

end PredictiveParsing
