import PredictiveParsing.Stabilize

/-!
# Passes that add to a value

A pass goes through a list and adds to a value what each member demands. If
every addition leaves the value alone or makes a bounded measure grow, passes
that are repeated often enough end at a value that demands nothing more. The
limit on their number then plays no part: the repetition ends by itself, at the
value that is computed within the limit.
-/

namespace PredictiveParsing

variable {α β : Type} {f : α → β → α} {holds : α → Prop} {measure : α → Nat} {l : List β}

/-- A property that every addition keeps is kept by a pass. -/
theorem foldl_keeps (keeps : ∀ a, holds a → ∀ b ∈ l, holds (f a b)) (a : α) (h : holds a) :
    holds (l.foldl f a) := by
  induction l generalizing a with
  | nil => exact h
  | cons b rest ih =>
    have hfirst := keeps a h b List.mem_cons_self
    exact ih (fun a ha b hb => keeps a ha b (List.mem_cons_of_mem _ hb)) (f a b) hfirst

/-- A pass makes the measure grow unless every addition leaves the value
alone. -/
theorem foldl_unchanged_or_grows (keeps : ∀ a, holds a → ∀ b ∈ l, holds (f a b))
    (grows : ∀ a, holds a → ∀ b ∈ l, f a b = a ∨ measure a < measure (f a b)) (a : α)
    (h : holds a) :
    ((∀ b ∈ l, f a b = a) ∧ l.foldl f a = a) ∨ measure a < measure (l.foldl f a) := by
  induction l generalizing a with
  | nil => exact .inl ⟨fun b hb => absurd hb List.not_mem_nil, rfl⟩
  | cons b rest ih =>
    have hkeeps : ∀ a, holds a → ∀ b ∈ rest, holds (f a b) :=
      fun a ha b hb => keeps a ha b (List.mem_cons_of_mem _ hb)
    have hgrows : ∀ a, holds a → ∀ b ∈ rest, f a b = a ∨ measure a < measure (f a b) :=
      fun a ha b hb => grows a ha b (List.mem_cons_of_mem _ hb)
    have hfirst := keeps a h b List.mem_cons_self
    rw [List.foldl_cons]
    rcases grows a h b List.mem_cons_self with heq | hlt
    · rw [heq]
      rcases ih hkeeps hgrows a h with ⟨hall, hfold⟩ | hlt
      · refine .inl ⟨fun c hc => ?_, hfold⟩
        rcases List.mem_cons.mp hc with e | hc
        · rw [e, heq]
        · exact hall c hc
      · exact .inr hlt
    · rcases ih hkeeps hgrows (f a b) hfirst with ⟨-, hfold⟩ | hmore
      · rw [hfold]
        exact .inr hlt
      · exact .inr (by omega)

/-- A pass that changes something makes the measure grow. -/
theorem foldl_grows (keeps : ∀ a, holds a → ∀ b ∈ l, holds (f a b))
    (grows : ∀ a, holds a → ∀ b ∈ l, f a b = a ∨ measure a < measure (f a b)) (a : α)
    (h : holds a) (hne : l.foldl f a ≠ a) : measure a < measure (l.foldl f a) :=
  (foldl_unchanged_or_grows keeps grows a h).resolve_left fun hsame => hne hsame.2

/-- Passes repeated beyond the bound of the measure end where no addition
changes anything. -/
theorem stabilize_pass [DecidableEq α] {bound : Nat}
    (keeps : ∀ a, holds a → ∀ b ∈ l, holds (f a b))
    (grows : ∀ a, holds a → ∀ b ∈ l, f a b = a ∨ measure a < measure (f a b))
    (bounded : ∀ a, holds a → measure a ≤ bound) (a : α) (h : holds a) :
    ∀ b ∈ l, f (stabilize (fun a => l.foldl f a) (bound + 1) a) b =
      stabilize (fun a => l.foldl f a) (bound + 1) a := by
  have hkeeps : ∀ a, holds a → holds (l.foldl f a) := foldl_keeps keeps
  have hend := step_stabilize hkeeps (foldl_grows keeps grows) bounded (bound + 1) a h (by omega)
  have hholds := stabilize_induction hkeeps (bound + 1) a h
  rcases foldl_unchanged_or_grows keeps grows _ hholds with ⟨hall, -⟩ | hlt
  · exact hall
  · rw [hend] at hlt
    exact absurd hlt (Nat.lt_irrefl _)

/-- The repetition of passes that may fail ends by itself, at what a limit
beyond the bound of the measure makes of the value. -/
theorem settles_pass [DecidableEq α] {ε : Type} {pass : α → Except ε α} {bound : Nat}
    (total : ∀ a, holds a → pass a = .ok (l.foldl f a))
    (keeps : ∀ a, holds a → ∀ b ∈ l, holds (f a b))
    (grows : ∀ a, holds a → ∀ b ∈ l, f a b = a ∨ measure a < measure (f a b))
    (bounded : ∀ a, holds a → measure a ≤ bound) (a : α) (h : holds a) :
    Settles pass a (stabilize (fun a => l.foldl f a) (bound + 1) a) :=
  settles_stabilize total (foldl_keeps keeps) (foldl_grows keeps grows) bounded (bound + 1) a h
    (by omega)

end PredictiveParsing
