import PredictiveParsing.Proofs.Descent.Recognition
import PredictiveParsing.Proofs.Descent.StepLimit

/-!
# A descent looks at no token beyond the current one

A step depends on the state, on the current token, and on the unit that marks
the end of the stream. The cursor never goes back, so that a descent that ends
with its cursor at a place has not read beyond this place. On another stream
with the same tokens up to there, and with an end marker of the same unit, it
takes the same steps, and ends with the same outcome. Only the limit of steps
depends on the length of the stream, but what ends at all ends within the limit.
-/

namespace PredictiveParsing

/-- Streams that a reader cannot tell apart who gets no further than a place. -/
structure TokenStream.AgreeUpTo (s t : TokenStream) (k : Nat) : Prop where
  /-- The tokens are the same up to this place. -/
  token : ∀ i ≤ k, t.token i = s.token i
  /-- The ends are marked by the same unit. -/
  endUnit : t.endUnit = s.endUnit

namespace Parser

/-- The same parser for another stream. -/
def onStream (p : Parser) (stream : TokenStream) : Parser := { p with stream }

variable {p : Parser} {stream : TokenStream} {k limit : Nat} {s next : ParseState}
  {stack frames : List Frame}

/-! ### The cursor does not go back -/

/-- A move leaves the cursor where it is, or takes it to the next token. -/
theorem Move.cursor_le (h : p.Move s stack next frames) : s.cursor ≤ next.cursor := by
  cases h with
  | leave | vanish | enter => exact Nat.le_refl _
  | take => exact Nat.le_succ _

/-- A run ends no earlier in the stream than it begins. -/
theorem cursor_le_of_run {o : Outcome Unit} (h : p.run limit s stack = some o) :
    s.cursor ≤ o.state.cursor := by
  induction limit generalizing s stack with
  | zero => cases h
  | succ limit ih =>
    rw [run] at h
    cases hs : p.step s stack with
    | running next frames =>
      rw [hs] at h
      exact Nat.le_trans (move_of_step hs).cursor_le (ih h)
    | finished last =>
      rw [hs] at h
      obtain ⟨-, rfl⟩ := eq_nil_of_step hs
      cases Option.some.inj h
      exact Nat.le_refl _
    | failed last e =>
      rw [hs] at h
      obtain ⟨_, _, _, _, -, rfl, -⟩ := rejects_of_step hs
      cases Option.some.inj h
      exact Nat.le_refl _

/-- Nor does a descent from a variable. -/
theorem cursor_le_of_build {a : Symbol} {o : Outcome (Option Nat)}
    (h : p.build limit a s = some o) : s.cursor ≤ o.state.cursor := by
  rw [build] at h
  cases he : p.expand a s with
  | error e =>
    rw [he] at h
    cases Option.some.inj h
    exact Nat.le_refl _
  | ok out =>
    obtain ⟨next, frame⟩ := out
    rw [he] at h
    rcases expand_eq_ok he with ⟨_, -, rfl, rfl⟩ | ⟨_, _, -, -, rfl, rfl⟩
    · cases Option.some.inj h
      exact Nat.le_refl _
    · obtain ⟨last, hlast, rfl⟩ := Option.map_eq_some_iff.mp h
      exact (cursor_le_of_run hlast :)

/-- The conclusion of a parse leaves the cursor where it is. -/
@[simp] theorem cursor_conclude (p : Parser) (o : Outcome (Option Nat)) :
    (p.conclude o).state.cursor = o.state.cursor := by
  rw [conclude]
  split
  · rfl
  · dsimp only
    split <;> rfl

/-! ### Streams that agree -/

/-- The same token is current as long as the cursor gets no further. -/
theorem current_onStream (h : p.stream.AgreeUpTo stream k) (hs : s.cursor ≤ k) :
    (p.onStream stream).current s = p.current s :=
  h.token s.cursor hs

/-- The same alternative is selected for a variable and a unit: of the stream
only the unit of the end marker plays a part. -/
theorem select_onStream (h : p.stream.AgreeUpTo stream k) (a : Symbol) (unit : LexicalUnit) :
    (p.onStream stream).select a unit = p.select a unit := by
  have hend : (p.onStream stream).stream.endUnit = p.stream.endUnit := h.endUnit
  rw [select, select, hend]
  rfl

/-- The same rule is chosen. -/
theorem chosenRule_onStream (h : p.stream.AgreeUpTo stream k) (hs : s.cursor ≤ k) (a : Symbol) :
    (p.onStream stream).chosenRule a s = p.chosenRule a s := by
  rw [chosenRule, chosenRule, current_onStream h hs, select_onStream h]
  rfl

/-- A variable is expanded in the same way, or refused with the same error. -/
theorem expand_onStream (h : p.stream.AgreeUpTo stream k) (hs : s.cursor ≤ k) (a : Symbol) :
    (p.onStream stream).expand a s = p.expand a s := by
  rw [expand, expand, chosenRule_onStream h hs, current_onStream h hs]
  rfl

/-- A terminal takes the same token, or refuses it with the same error. -/
theorem consume_onStream (h : p.stream.AgreeUpTo stream k) (hs : s.cursor ≤ k) (a : Symbol) :
    (p.onStream stream).consume a s = p.consume a s := by
  rw [consume, consume, current_onStream h hs]
  rfl

/-- The same step is taken. -/
theorem step_onStream (h : p.stream.AgreeUpTo stream k) (hs : s.cursor ≤ k)
    (stack : List Frame) : (p.onStream stream).step s stack = p.step s stack := by
  match stack with
  | [] => rfl
  | ⟨_, []⟩ :: _ => rfl
  | ⟨_, _ :: _⟩ :: _ =>
    rw [step, step, expand_onStream h hs, consume_onStream h hs]
    rfl

/-- A run that gets no further is the same run. -/
theorem run_onStream {o : Outcome Unit} (h : p.stream.AgreeUpTo stream k)
    (hrun : p.run limit s stack = some o) (ho : o.state.cursor ≤ k) :
    (p.onStream stream).run limit s stack = some o := by
  induction limit generalizing s stack with
  | zero => cases hrun
  | succ limit ih =>
    have hs := Nat.le_trans (cursor_le_of_run hrun) ho
    rw [run] at hrun ⊢
    rw [step_onStream h hs]
    cases hstep : p.step s stack with
    | running next frames =>
      rw [hstep] at hrun
      exact ih hrun
    | finished last | failed last e =>
      rw [hstep] at hrun
      exact hrun

/-- So is a descent from a variable. -/
theorem build_onStream {a : Symbol} {o : Outcome (Option Nat)} (h : p.stream.AgreeUpTo stream k)
    (hbuild : p.build limit a s = some o) (ho : o.state.cursor ≤ k) :
    (p.onStream stream).build limit a s = some o := by
  have hs := Nat.le_trans (cursor_le_of_build hbuild) ho
  rw [build] at hbuild ⊢
  rw [expand_onStream h hs]
  cases he : p.expand a s with
  | error e =>
    rw [he] at hbuild
    exact hbuild
  | ok out =>
    obtain ⟨next, frame⟩ := out
    rw [he] at hbuild
    cases frame with
    | none => exact hbuild
    | some frame =>
      obtain ⟨last, hlast, rfl⟩ := Option.map_eq_some_iff.mp hbuild
      exact Option.map_eq_some_iff.mpr ⟨last, run_onStream h hlast ho, rfl⟩

/-- The conclusion compares the current token with the unit of the end marker
only. -/
theorem conclude_onStream {o : Outcome (Option Nat)} (h : p.stream.AgreeUpTo stream k)
    (ho : o.state.cursor ≤ k) : (p.onStream stream).conclude o = p.conclude o := by
  have hend : (p.onStream stream).stream.endUnit = p.stream.endUnit := h.endUnit
  have hcurrent : ∀ tree, (p.onStream stream).current { o.state with tree } =
      p.current { o.state with tree } := fun tree => current_onStream h ho
  rw [conclude, conclude]
  simp only [hend, hcurrent]
  rfl

/-- A parse of limited length that gets no further is the same parse. -/
theorem parseWithin_onStream {o : Outcome Unit} (h : p.stream.AgreeUpTo stream k)
    (hparse : p.parseWithin limit = some o) (ho : o.state.cursor ≤ k) :
    (p.onStream stream).parseWithin limit = some o := by
  obtain ⟨last, hlast, rfl⟩ := Option.map_eq_some_iff.mp hparse
  rw [cursor_conclude] at ho
  exact Option.map_eq_some_iff.mpr ⟨last, build_onStream h hlast ho, conclude_onStream h ho⟩

/-- A parse that gets no further is the same parse, however long the streams
are. -/
theorem parse_onStream {o : Outcome Unit} (h : p.stream.AgreeUpTo stream k)
    (hparse : p.parse = some o) (ho : o.state.cursor ≤ k) :
    (p.onStream stream).parse = some o :=
  parse_eq_of_parseWithin (parseWithin_onStream h hparse ho)

variable {settings : Settings} {g : Grammar} {units : Option UnitMap} {tokens others : List Token}
  {q : Parser}

/-- Parsers made of the same grammar and units differ in their streams only. -/
theorem Made.eq_onStream (hp : Made settings g units tokens p)
    (hq : Made settings g units others q) : q = p.onStream q.stream := by
  have hgrammar : q.grammar = p.grammar := by
    have hr := hq.reduced
    rw [hp.reduced] at hr
    exact (Except.ok.inj hr).symm
  have htable : q.table = p.table := by rw [hq.table_eq, hp.table_eq, hgrammar]
  have hsettings := hq.settings_eq.trans hp.settings_eq.symm
  have hunits := hq.units_eq.trans hp.units_eq.symm
  cases q
  rw [onStream, Parser.mk.injEq]
  exact ⟨hsettings, hgrammar, htable, rfl, hunits⟩

/-- Lists of tokens that agree up to a place before their ends, and in the types
of their last tokens, give streams that agree up to this place. -/
theorem Made.agreeUpTo (hp : Made settings g units tokens p) (hq : Made settings g units others q)
    (hk : k < tokens.length) (hk' : k < others.length)
    (hagree : ∀ i ≤ k, others[i]? = tokens[i]?)
    (hlast : others.getLast?.map Token.unit = tokens.getLast?.map Token.unit) :
    p.stream.AgreeUpTo q.stream k where
  token := by
    intro i hi
    have hget := hagree i hi
    rw [hq.token_eq_of_lt (by omega), hp.token_eq_of_lt (by omega)] at hget
    exact Option.some.inj hget
  endUnit := by
    rw [hq.endUnit_eq, hp.endUnit_eq] at hlast
    exact Option.some.inj hlast

/-- A parser has one token of lookahead. Where it ends, by success or by an
error, with its cursor at a place or before it, tokens behind this place play no
part: for every other list of tokens that is longer than the place, has the same
tokens up to it and a last token of the same type there is a parser, and its
parse ends with the same result or error, the same rules, the same cursor and
the same nodes. -/
theorem make_parse_causal (hp : make settings g units tokens = .ok p) (hk : k < tokens.length)
    (hk' : k < others.length) (hagree : ∀ i ≤ k, others[i]? = tokens[i]?)
    (hlast : others.getLast?.map Token.unit = tokens.getLast?.map Token.unit) :
    ∃ q, make settings g units others = .ok q ∧ q.grammar = p.grammar ∧
      ∀ o, p.parse = some o → o.state.cursor ≤ k → q.parse = some o := by
  have hmade := made_of_make hp
  have hne : others ≠ [] := List.ne_nil_of_length_pos (Nat.zero_lt_of_lt hk')
  obtain ⟨q, hq, hgrammar⟩ := exists_make hmade.reduced units others.dropLast (others.getLast hne)
  rw [List.dropLast_append_getLast hne] at hq
  have hother := made_of_make hq
  refine ⟨q, hq, hgrammar, fun o ho hcursor => ?_⟩
  rw [hmade.eq_onStream hother]
  exact parse_onStream (hmade.agreeUpTo hother hk hk' hagree hlast) ho hcursor

/-- A second summand without a plus sign in front of it is refused with the same
error, whatever comes behind it. -/
theorem make_parse_causal_sums : ∃ p q o,
    make {} Grammar.sums none (Token.ofNames ["x", "x", "+", "end"]) = .ok p ∧
      make {} Grammar.sums none (Token.ofNames ["x", "x", "end"]) = .ok q ∧
      p.parse = some o ∧ q.parse = some o ∧ o.state.cursor = 1 ∧ o.state.trace = [1, 2] ∧
      o.result = .error (.noProduction (.nonterminal "E''") [.named "+"]
        ⟨.named "x", .text "x", .int 1, .int 1⟩) := by
  have hrun : ((make {} Grammar.sums none (Token.ofNames ["x", "x", "+", "end"])).toOption.bind
      fun p => (p.parseWithin 20).map fun o => (o.state.cursor, o.state.trace, o.result)) =
      some (1, [1, 2], .error (.noProduction (.nonterminal "E''") [.named "+"]
        ⟨.named "x", .text "x", .int 1, .int 1⟩)) := by
    decide +kernel
  obtain ⟨p, hp, hparse⟩ := exists_of_make_bind hrun
  obtain ⟨o, ho, hvalues⟩ := Option.map_eq_some_iff.mp hparse
  obtain ⟨hcursor, hrest⟩ := Prod.mk.inj hvalues
  obtain ⟨htrace, hresult⟩ := Prod.mk.inj hrest
  have hparse := parse_eq_of_parseWithin ho
  have hagree : ∀ i ≤ 1, (Token.ofNames ["x", "x", "end"])[i]? =
      (Token.ofNames ["x", "x", "+", "end"])[i]? := by decide
  obtain ⟨q, hq, -, hsame⟩ := make_parse_causal hp (by decide) (by decide) hagree (by decide)
  exact ⟨p, q, o, hp, hq, hparse, hsame o hparse (Nat.le_of_eq hcursor), hcursor, htrace, hresult⟩

end Parser

end PredictiveParsing
