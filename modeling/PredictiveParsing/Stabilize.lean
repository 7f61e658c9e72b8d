/-!
# Repeating a step until nothing changes

Sets and tables are often defined as the least ones closed under a step and
computed by repeating the step until it changes nothing. The repetition
here has a limit, which its users compute from their input. A relation says
what the repetition without a limit does, and the theorems say what makes a
limit so large that it plays no part.
-/

namespace PredictiveParsing

variable {α : Type} [DecidableEq α]

/-- What repeating a step makes of a value: the first value that the step
leaves as it is, or the last one within the limit. -/
def stabilize (step : α → α) : (limit : Nat) → α → α
  | 0, a => a
  | limit + 1, a => if step a = a then a else stabilize step limit (step a)

/-- A step that may fail, repeated from a value for as long as it changes
something, never fails and ends at the other value. -/
inductive Settles {α ε : Type} (step : α → Except ε α) : α → α → Prop
  /-- The step changes nothing. -/
  | rest {a : α} (unchanged : step a = .ok a) : Settles step a a
  /-- The step changes the value and is repeated from the new one. -/
  | more {a next last : α} (changed : step a = .ok next) (ne : next ≠ a)
      (later : Settles step next last) : Settles step a last

namespace Settles

variable {α ε : Type} {step : α → Except ε α} {a last other : α}

/-- A further step changes nothing. -/
theorem step_eq (h : Settles step a last) : step last = .ok last := by
  induction h with
  | rest unchanged => exact unchanged
  | more _ _ _ ih => exact ih

/-- A repetition ends at one value only. -/
theorem unique (h : Settles step a last) (ho : Settles step a other) : other = last := by
  induction h with
  | rest unchanged =>
    cases ho with
    | rest => rfl
    | more changed ne =>
      rw [unchanged] at changed
      exact absurd (Except.ok.inj changed).symm ne
  | more changed ne _ ih =>
    cases ho with
    | rest unchanged =>
      rw [changed] at unchanged
      exact absurd (Except.ok.inj unchanged) ne
    | more changed' _ later =>
      rw [changed] at changed'
      rw [← Except.ok.inj changed'] at later
      exact ih later

end Settles

/-- Where every change makes a bounded measure grow, the repetition ends by
itself, at what a limit beyond the bound makes of the value. -/
theorem settles_stabilize {ε : Type} {checked : α → Except ε α} {step : α → α}
    {holds : α → Prop} {measure : α → Nat} {bound : Nat}
    (total : ∀ a, holds a → checked a = .ok (step a))
    (keeps : ∀ a, holds a → holds (step a))
    (grows : ∀ a, holds a → step a ≠ a → measure a < measure (step a))
    (bounded : ∀ a, holds a → measure a ≤ bound) (limit : Nat) (a : α) (h : holds a)
    (enough : bound < measure a + limit) : Settles checked a (stabilize step limit a) := by
  induction limit generalizing a with
  | zero => exact absurd (bounded a h) (by omega)
  | succ limit ih =>
    simp only [stabilize]
    split
    · next hs => exact .rest ((total a h).trans (congrArg Except.ok hs))
    · next hs =>
      have := grows a h hs
      exact .more (total a h) hs (ih (step a) (keeps a h) (by omega))

/-- So a limit beyond the bound ends at a value that the step leaves as it
is. -/
theorem step_stabilize {step : α → α} {holds : α → Prop} {measure : α → Nat} {bound : Nat}
    (keeps : ∀ a, holds a → holds (step a))
    (grows : ∀ a, holds a → step a ≠ a → measure a < measure (step a))
    (bounded : ∀ a, holds a → measure a ≤ bound) (limit : Nat) (a : α) (h : holds a)
    (enough : bound < measure a + limit) :
    step (stabilize step limit a) = stabilize step limit a := by
  have total : ∀ a, holds a → (.ok (step a) : Except Empty α) = .ok (step a) := fun _ _ => rfl
  exact Except.ok.inj (settles_stabilize total keeps grows bounded limit a h enough).step_eq

/-- A property that every step keeps holds of the outcome. -/
theorem stabilize_induction {step : α → α} {holds : α → Prop}
    (keeps : ∀ a, holds a → holds (step a)) (limit : Nat) (a : α) (h : holds a) :
    holds (stabilize step limit a) := by
  induction limit generalizing a with
  | zero => exact h
  | succ limit ih =>
    simp only [stabilize]
    split
    · exact h
    · exact ih (step a) (keeps a h)

end PredictiveParsing
