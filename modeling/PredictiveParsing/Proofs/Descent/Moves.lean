import PredictiveParsing.Descent
import PredictiveParsing.Proofs.ParseTree.Arena
import PredictiveParsing.Proofs.Parser

/-!
# The moves of a descent

A step that leads on is one of four moves: a frame that is read is left, a
variable vanishes, a variable is opened, or a token is taken. A step that
fails rejects the symbol in front. What every move keeps holds of every
configuration that a parse visits, and a parse ends where such a
configuration is read to its end or rejects its symbol.
-/

namespace PredictiveParsing

/-- An outcome that has a value is no failure. -/
theorem Outcome.eq_ok_of_toOption {o : Outcome Unit} (h : o.result.toOption = some ()) :
    o.result = .ok () := by
  cases hr : o.result with
  | error e => rw [hr] at h; cases h
  | ok u => rfl

namespace Parser

variable {p : Parser} {s : ParseState}

/-- A chosen rule is the selected alternative with the number that is
computed for it. -/
theorem chosenRule_eq_some {a : Symbol} {k : Nat} {body : Body}
    (h : p.chosenRule a s = some (k, body)) :
    ∃ i, p.select a (p.current s).unit = some i ∧ (p.grammar.rulesOf a)[i]? = some body ∧
      k = (p.grammar.firstNumber? a).getD 0 + i := by
  obtain ⟨i, hi, hrule⟩ := Option.map_eq_some_iff.mp h
  obtain ⟨chosen, hchosen⟩ := exists_body_of_select hi
  rw [hchosen, Option.getD_some] at hrule
  have hk := (Prod.mk.inj hrule).1
  have hb := (Prod.mk.inj hrule).2
  exact ⟨i, hi, hb ▸ hchosen, hk.symm⟩

/-- The body of a chosen rule is an alternative. -/
theorem mem_rulesOf_of_chosenRule {a : Symbol} {k : Nat} {body : Body}
    (h : p.chosenRule a s = some (k, body)) : body ∈ p.grammar.rulesOf a := by
  obtain ⟨i, -, hi, -⟩ := chosenRule_eq_some h
  exact List.mem_of_getElem? hi

/-- An expansion applies the chosen rule: the empty string leaves no node,
another body is read from a new one. -/
theorem expand_eq_ok {a : Symbol} {next : ParseState} {frame : Option Frame}
    (h : p.expand a s = .ok (next, frame)) :
    (∃ k, p.chosenRule a s = some (k, epsilonBody) ∧
      next = { s with trace := s.trace ++ [k] } ∧ frame = none) ∨
    ∃ k body, p.chosenRule a s = some (k, body) ∧ body ≠ epsilonBody ∧
      next = { s with trace := s.trace ++ [k], tree := (s.tree.addNode a none).1 } ∧
      frame = some ⟨s.tree.size, body⟩ := by
  rw [expand] at h
  cases hc : p.chosenRule a s with
  | none => rw [hc] at h; cases h
  | some rule =>
    obtain ⟨k, body⟩ := rule
    rw [hc] at h
    dsimp only at h
    split at h
    · next hb =>
      have he := Prod.mk.inj (Except.ok.inj h)
      exact .inl ⟨k, by rw [hb], he.1.symm, he.2.symm⟩
    · next hb =>
      have he := Prod.mk.inj (Except.ok.inj h)
      exact .inr ⟨k, body, rfl, hb, he.1.symm, he.2.symm⟩

/-- Why a state rejects a symbol. -/
inductive Rejects (p : Parser) (s : ParseState) : Symbol → SyntaxError → Prop
  /-- No alternative of a variable accepts the current token. -/
  | head {x : Symbol} (mem : x ∈ p.grammar.vars) (none : p.chosenRule x s = none) :
      Rejects p s x (.noProduction x (p.acceptable x) (p.current s))
  /-- The current token is not of the unit of the symbol. -/
  | unit {x : Symbol} (notMem : x ∉ p.grammar.vars) (ne : (p.current s).unit ≠ p.unitOf x) :
      Rejects p s x (.mismatch (p.unitOf x) (p.current s))

/-- The error of a rejection carries the current token. -/
theorem Rejects.token {x : Symbol} {e : SyntaxError} (h : p.Rejects s x e) :
    e.token = p.current s := by
  cases h with
  | head => rfl
  | unit => rfl

/-- An expansion fails where the variable is rejected. -/
theorem rejects_of_expand {a : Symbol} {e : SyntaxError} (ha : a ∈ p.grammar.vars)
    (h : p.expand a s = .error e) : p.Rejects s a e := by
  rw [expand] at h
  cases hc : p.chosenRule a s with
  | none =>
    rw [hc] at h
    rw [← Except.error.inj h]
    exact .head ha hc
  | some rule =>
    rw [hc] at h
    dsimp only at h
    split at h <;> cases h

/-- The moves that lead from one configuration to the next. -/
inductive Move (p : Parser) : ParseState → List Frame → ParseState → List Frame → Prop
  /-- A frame that is read to its end is left. -/
  | leave {s : ParseState} {node : Nat} {below : List Frame} :
      Move p s (⟨node, []⟩ :: below) s below
  /-- A variable is replaced by the empty string. -/
  | vanish {s : ParseState} {node k : Nat} {x : Symbol} {unread : List Symbol}
      {below : List Frame} (mem : x ∈ p.grammar.vars)
      (chosen : p.chosenRule x s = some (k, epsilonBody)) :
      Move p s (⟨node, x :: unread⟩ :: below)
        { s with trace := s.trace ++ [k] } (⟨node, unread⟩ :: below)
  /-- A variable gets a node and its rule is to be read. -/
  | enter {s : ParseState} {node k : Nat} {x : Symbol} {body : Body} {unread : List Symbol}
      {below : List Frame} (mem : x ∈ p.grammar.vars)
      (chosen : p.chosenRule x s = some (k, body)) (ne : body ≠ epsilonBody) :
      Move p s (⟨node, x :: unread⟩ :: below)
        { s with trace := s.trace ++ [k], tree := s.tree.grow node x none }
        (⟨s.tree.size, body⟩ :: ⟨node, unread⟩ :: below)
  /-- Another symbol takes the current token. -/
  | take {s : ParseState} {node : Nat} {x : Symbol} {unread : List Symbol} {below : List Frame}
      (notMem : x ∉ p.grammar.vars) (unit : (p.current s).unit = p.unitOf x) :
      Move p s (⟨node, x :: unread⟩ :: below)
        { s with cursor := s.cursor + 1, tree := s.tree.grow node x (some (p.current s)) }
        (⟨node, unread⟩ :: below)

/-- Moves keep what holds of all unread symbols if it holds of the symbols of every
alternative that gets a node. -/
theorem Move.forall_unread {holds : Symbol → Prop} {stack frames : List Frame} {next : ParseState}
    (hm : p.Move s stack next frames)
    (hbody : ∀ a, ∀ body ∈ p.grammar.rulesOf a, body ≠ epsilonBody → ∀ x ∈ body, holds x)
    (h : ∀ frame ∈ stack, ∀ x ∈ frame.unread, holds x) :
    ∀ frame ∈ frames, ∀ x ∈ frame.unread, holds x := by
  cases hm with
  | leave => exact (List.forall_mem_cons.mp h).2
  | vanish =>
    obtain ⟨hfront, hbelow⟩ := List.forall_mem_cons.mp h
    exact List.forall_mem_cons.mpr ⟨(List.forall_mem_cons.mp hfront).2, hbelow⟩
  | enter _ chosen ne =>
    obtain ⟨hfront, hbelow⟩ := List.forall_mem_cons.mp h
    refine List.forall_mem_cons.mpr ⟨hbody _ _ (mem_rulesOf_of_chosenRule chosen) ne, ?_⟩
    exact List.forall_mem_cons.mpr ⟨(List.forall_mem_cons.mp hfront).2, hbelow⟩
  | take =>
    obtain ⟨hfront, hbelow⟩ := List.forall_mem_cons.mp h
    exact List.forall_mem_cons.mpr ⟨(List.forall_mem_cons.mp hfront).2, hbelow⟩

/-- A step leads on by a move. -/
theorem move_of_step {stack frames : List Frame} {next : ParseState}
    (h : p.step s stack = .running next frames) : p.Move s stack next frames := by
  match stack with
  | [] => cases h
  | ⟨node, []⟩ :: below =>
    rw [step] at h
    obtain ⟨hs, hf⟩ := Progress.running.inj h
    rw [← hs, ← hf]
    exact .leave
  | ⟨node, x :: unread⟩ :: below =>
    rw [step] at h
    split at h
    · next hx =>
      cases he : p.expand x s with
      | error e => rw [he] at h; cases h
      | ok out =>
        obtain ⟨after, frame⟩ := out
        rw [he] at h
        rcases expand_eq_ok he with ⟨k, hc, hafter, rfl⟩ | ⟨k, body, hc, hb, hafter, rfl⟩
        · obtain ⟨hs, hf⟩ := Progress.running.inj h
          rw [← hs, ← hf, hafter]
          exact .vanish hx hc
        · obtain ⟨hs, hf⟩ := Progress.running.inj h
          rw [← hs, ← hf, hafter]
          exact .enter hx hc hb
    · next hx =>
      rw [consume] at h
      by_cases hu : (p.current s).unit = p.unitOf x
      · rw [if_pos hu] at h
        obtain ⟨hs, hf⟩ := Progress.running.inj h
        rw [← hs, ← hf]
        exact .take hx hu
      · rw [if_neg hu] at h
        cases h

/-- A step ends the descent where no frame is left. -/
theorem eq_nil_of_step {stack : List Frame} {last : ParseState}
    (h : p.step s stack = .finished last) : stack = [] ∧ last = s := by
  match stack with
  | [] => exact ⟨rfl, (Progress.finished.inj h).symm⟩
  | ⟨node, []⟩ :: below => cases h
  | ⟨node, x :: unread⟩ :: below =>
    rw [step] at h
    split at h
    · split at h <;> cases h
    · split at h <;> cases h

/-- A step fails where the symbol in front is rejected. -/
theorem rejects_of_step {stack : List Frame} {last : ParseState} {e : SyntaxError}
    (h : p.step s stack = .failed last e) :
    ∃ node x unread below, stack = ⟨node, x :: unread⟩ :: below ∧ last = s ∧
      p.Rejects s x e := by
  match stack with
  | [] => cases h
  | ⟨node, []⟩ :: below => cases h
  | ⟨node, x :: unread⟩ :: below =>
    rw [step] at h
    split at h
    · next hx =>
      cases he : p.expand x s with
      | error cause =>
        rw [he] at h
        obtain ⟨hs, hcause⟩ := Progress.failed.inj h
        rw [← hcause]
        exact ⟨node, x, unread, below, rfl, hs.symm, rejects_of_expand hx he⟩
      | ok out =>
        obtain ⟨after, frame⟩ := out
        rw [he] at h
        cases frame <;> cases h
    · next hx =>
      rw [consume] at h
      by_cases hu : (p.current s).unit = p.unitOf x
      · rw [if_pos hu] at h
        cases h
      · rw [if_neg hu] at h
        obtain ⟨hs, hcause⟩ := Progress.failed.inj h
        rw [← hcause]
        exact ⟨node, x, unread, below, rfl, hs.symm, .unit hx hu⟩

/-- The configurations that the descent of a parse passes through once the
start symbol has a node. -/
inductive Visits (p : Parser) : ParseState → List Frame → Prop
  /-- The start symbol has got its node. -/
  | opened {s : ParseState} {frame : Frame}
      (expanded : p.expand p.grammar.start {} = .ok (s, some frame)) : Visits p s [frame]
  /-- The descent goes on. -/
  | stepped {s next : ParseState} {stack frames : List Frame} (visited : Visits p s stack)
      (step : p.step s stack = .running next frames) : Visits p next frames

/-- The state after the start symbol is opened. -/
def openedState (p : Parser) (k : Nat) : ParseState :=
  { trace := [k], tree := ((ParseTree.empty).addNode p.grammar.start none).1 }

/-- What holds where the start symbol is opened and is kept by every move
holds of every configuration that is visited. -/
theorem Visits.invariant {holds : ParseState → List Frame → Prop}
    (opened : ∀ k body, p.chosenRule p.grammar.start {} = some (k, body) → body ≠ epsilonBody →
      holds (p.openedState k) [⟨0, body⟩])
    (moved : ∀ s stack next frames, p.Visits s stack → holds s stack →
      p.Move s stack next frames → holds next frames)
    {s : ParseState} {stack : List Frame} (h : p.Visits s stack) : holds s stack := by
  induction h with
  | opened expanded =>
    rcases expand_eq_ok expanded with ⟨k, -, -, hf⟩ | ⟨k, body, hc, hb, hs, hf⟩
    · cases hf
    · rw [hs, Option.some.inj hf]
      exact opened k body hc hb
  | stepped visited step ih => exact moved _ _ _ _ visited ih (move_of_step step)

/-- How the descent from the start symbol ends: the state it leaves, and the
place of the root or an error. -/
inductive Ends (p : Parser) : ParseState → Except SyntaxError (Option Nat) → Prop
  /-- The start symbol is rejected. -/
  | refused {e : SyntaxError} (rejects : p.Rejects {} p.grammar.start e) : Ends p {} (.error e)
  /-- The start symbol vanishes. -/
  | vanished {k : Nat} (chosen : p.chosenRule p.grammar.start {} = some (k, epsilonBody)) :
      Ends p { trace := [k] } (.ok none)
  /-- All frames are read. -/
  | read {s : ParseState} (visited : p.Visits s []) : Ends p s (.ok (some 0))
  /-- A symbol is rejected. -/
  | stuck {s : ParseState} {node : Nat} {x : Symbol} {unread : List Symbol} {below : List Frame}
      {e : SyntaxError} (visited : p.Visits s (⟨node, x :: unread⟩ :: below))
      (rejects : p.Rejects s x e) : Ends p s (.error e)

/-- A run from a visited configuration ends at a visited configuration. -/
theorem Visits.ends {limit : Nat} {stack : List Frame} {o : Outcome Unit} (h : p.Visits s stack)
    (hrun : p.run limit s stack = some o) : p.Ends o.state (o.result.map fun _ => some 0) := by
  induction limit generalizing s stack with
  | zero => cases hrun
  | succ limit ih =>
    rw [run] at hrun
    cases hs : p.step s stack with
    | running next frames =>
      rw [hs] at hrun
      exact ih (h.stepped hs) hrun
    | finished last =>
      rw [hs] at hrun
      obtain ⟨rfl, rfl⟩ := eq_nil_of_step hs
      rw [← Option.some.inj hrun]
      exact .read h
    | failed last e =>
      rw [hs] at hrun
      obtain ⟨node, x, unread, below, rfl, rfl, hr⟩ := rejects_of_step hs
      rw [← Option.some.inj hrun]
      exact .stuck h hr

/-- The descent of a parse ends in one of the four ways. -/
theorem ends_of_build {limit : Nat} {o : Outcome (Option Nat)}
    (h : p.build limit p.grammar.start {} = some o) : p.Ends o.state o.result := by
  rw [build] at h
  cases he : p.expand p.grammar.start {} with
  | error e =>
    rw [he] at h
    rw [← Option.some.inj h]
    exact .refused (rejects_of_expand p.grammar.valid.start_mem he)
  | ok out =>
    obtain ⟨next, frame⟩ := out
    rw [he] at h
    rcases expand_eq_ok he with ⟨k, hc, hs, rfl⟩ | ⟨k, body, -, -, -, rfl⟩
    · rw [← Option.some.inj h, hs]
      exact .vanished hc
    · obtain ⟨last, hlast, ho⟩ := Option.map_eq_some_iff.mp h
      have hend := (Visits.opened he).ends hlast
      rw [← ho]
      exact hend

/-- A number that falls with every move bounds the steps of a run. -/
theorem Visits.exists_run {measure : ParseState → List Frame → Nat → Prop}
    (falls : ∀ s stack next frames m, p.Visits s stack → measure s stack m →
      p.Move s stack next frames → ∃ k < m, measure next frames k)
    {limit m : Nat} {stack : List Frame} (h : p.Visits s stack) (hm : measure s stack m)
    (hlimit : m < limit) : ∃ o, p.run limit s stack = some o := by
  induction limit generalizing s stack m with
  | zero => omega
  | succ limit ih =>
    rw [run]
    cases hs : p.step s stack with
    | running next frames =>
      obtain ⟨k, hlt, hk⟩ := falls s stack next frames m h hm (move_of_step hs)
      exact ih (h.stepped hs) hk (by omega)
    | finished last => exact ⟨_, rfl⟩
    | failed last error => exact ⟨_, rfl⟩

/-- A parse halts if it does so once the start symbol is opened. -/
theorem exists_parse_of_opened
    (h : ∀ k body, p.chosenRule p.grammar.start {} = some (k, body) →
      p.Visits (p.openedState k) [⟨0, body⟩] →
      ∃ o, p.run p.stepLimit (p.openedState k) [⟨0, body⟩] = some o) :
    ∃ o, p.parse = some o := by
  have hbuild : ∃ o, p.build p.stepLimit p.grammar.start {} = some o := by
    rw [build]
    cases he : p.expand p.grammar.start {} with
    | error e => exact ⟨_, rfl⟩
    | ok out =>
      obtain ⟨next, frame⟩ := out
      rcases expand_eq_ok he with ⟨k, -, -, rfl⟩ | ⟨k, body, hc, -, rfl, rfl⟩
      · exact ⟨_, rfl⟩
      · obtain ⟨o, ho⟩ := h k body hc (.opened he)
        exact ⟨_, Option.map_eq_some_iff.mpr ⟨o, ho, rfl⟩⟩
  obtain ⟨o, ho⟩ := hbuild
  exact ⟨p.conclude o, Option.map_eq_some_iff.mpr ⟨o, ho, rfl⟩⟩

/-- Steps that a longer limit leaves unused do not matter to a parse. -/
theorem parseWithin_mono {limit more : Nat} {o : Outcome Unit}
    (h : p.parseWithin limit = some o) (hle : limit ≤ more) : p.parseWithin more = some o := by
  obtain ⟨descent, hd, ho⟩ := Option.map_eq_some_iff.mp h
  refine Option.map_eq_some_iff.mpr ⟨descent, ?_, ho⟩
  rw [build] at hd ⊢
  cases he : p.expand p.grammar.start {} with
  | error e =>
    rw [he] at hd
    exact hd
  | ok out =>
    obtain ⟨next, frame⟩ := out
    rw [he] at hd
    cases frame with
    | none => exact hd
    | some frame =>
      obtain ⟨last, hlast, hdescent⟩ := Option.map_eq_some_iff.mp hd
      exact Option.map_eq_some_iff.mpr ⟨last, run_mono hlast hle, hdescent⟩

/-- A parse concludes a descent that has ended. -/
theorem ends_of_parseWithin {limit : Nat} {o : Outcome Unit} (h : p.parseWithin limit = some o) :
    ∃ last result, p.Ends last result ∧ o = p.conclude ⟨last, result⟩ := by
  obtain ⟨descent, hd, ho⟩ := Option.map_eq_some_iff.mp h
  exact ⟨descent.state, descent.result, ends_of_build hd, ho.symm⟩

/-- What a parse concludes without an error is the state of the descent with
a root. -/
theorem conclude_eq_ok {last : ParseState} {result : Except SyntaxError (Option Nat)}
    (h : (p.conclude ⟨last, result⟩).result = .ok ()) :
    ∃ root, result = .ok root ∧
      (p.conclude ⟨last, result⟩).state = { last with tree := last.tree.setRoot root } := by
  cases result with
  | error e => cases h
  | ok root =>
    refine ⟨root, rfl, ?_⟩
    rw [conclude] at h ⊢
    dsimp only at h ⊢
    split at h
    · cases h
    · next hunit => rw [if_neg hunit]

end Parser

end PredictiveParsing
