import PredictiveParsing.Proofs.Descent.Moves
import PredictiveParsing.Proofs.Grammar.Names
import PredictiveParsing.Proofs.Grammar.Numbering
import PredictiveParsing.Proofs.Reduction.Stages

/-!
# The trace of a descent is a leftmost derivation

The numbers that a parse has noted, applied one after the other to the
leftmost variable, lead from the start symbol to the terminals matched so
far followed by the symbols that the frames still have to read. This holds
of every configuration that is met and of the state in which a parse ends,
whatever the grammar, and also where the table has conflicts. If useless
symbols were removed the unread symbols generate something, so that the
matched terminals begin a sentence.
-/

namespace PredictiveParsing

/-- A string of terminals with which a sentence of a grammar begins. -/
def Grammar.BeginsSentence (g : Grammar) (w : List Symbol) : Prop :=
  ∃ rest, Generates g.rulesOf [g.start] (w ++ rest)

namespace Parser

/-- The configurations of a parse from its beginning, with the symbols that
are still to be read: the symbol that is dealt with and what the frames have
left from top to bottom. -/
inductive Pending (p : Parser) : ParseState → List Symbol → Prop
  /-- The start symbol is dealt with. -/
  | start : Pending p {} [p.grammar.start]
  /-- The start symbol has vanished. -/
  | vanished {s : ParseState} (expanded : p.expand p.grammar.start {} = .ok (s, none)) :
      Pending p s []
  /-- There are frames, or there have been. -/
  | visited {s : ParseState} {stack : List Frame} (visited : p.Visits s stack) :
      Pending p s (stack.flatMap Frame.unread)

/-- How a state hangs together with the symbols that are still to be
read. -/
structure Tracks (p : Parser) (s : ParseState) (unread : List Symbol) : Prop where
  /-- The trace leads to the matched terminals and the unread symbols. -/
  replays : p.grammar.replay s.trace [p.grammar.start] = some (s.tree.matched ++ unread)
  /-- What was matched are terminals. -/
  word : IsWord s.tree.matched
  /-- Their units are those of the tokens before the cursor. -/
  units : s.tree.matched.map p.unitOf =
    (List.range s.cursor).map fun i => (p.stream.token i).unit
  /-- What is unread are variables and terminals. -/
  declared : ∀ x ∈ unread, x ∈ p.grammar.vars ∨ x.isTerminal = true

section

variable {p : Parser} {s : ParseState}

/-- Nothing is matched at the beginning. -/
theorem tracks_start (p : Parser) : p.Tracks {} [p.grammar.start] where
  replays := rfl
  word := isWord_nil
  units := rfl
  declared := by
    intro x hx
    rw [List.mem_singleton.mp hx]
    exact .inl p.grammar.valid.start_mem

/-- An unread symbol that is no variable is a terminal. -/
theorem Tracks.isTerminal {x : Symbol} {unread : List Symbol} (h : p.Tracks s (x :: unread))
    (hx : x ∉ p.grammar.vars) : x.isTerminal = true :=
  (h.declared x List.mem_cons_self).elim (fun hm => absurd hm hx) id

/-- The number of a chosen rule leads back to it. -/
theorem ruleNumbered?_of_chosenRule {a : Symbol} {k : Nat} {body : Body}
    (h : p.chosenRule a s = some (k, body)) : p.grammar.ruleNumbered? k = some (a, body) := by
  obtain ⟨i, -, hi, rfl⟩ := chosenRule_eq_some h
  exact Grammar.ruleNumbered?_firstNumber hi

/-- A variable that is dealt with is replaced by its chosen rule. -/
theorem Tracks.expand (hg : p.grammar.Closed) (tree : ParseTree) {x : Symbol}
    {unread : List Symbol} {k : Nat} {body : Body} (h : p.Tracks s (x :: unread))
    (hc : p.chosenRule x s = some (k, body)) (htree : tree.matched = s.tree.matched) :
    p.Tracks { s with trace := s.trace ++ [k], tree } (Body.spelled body ++ unread) := by
  have hleft : ∀ y ∈ s.tree.matched, y ∉ p.grammar.vars :=
    fun y hy => hg.notMem_vars_of_isTerminal (h.word y hy)
  refine ⟨?_, htree ▸ h.word, htree ▸ h.units, fun y hy => ?_⟩
  · dsimp only
    rw [htree]
    exact Grammar.replay_concat h.replays hleft (ruleNumbered?_of_chosenRule hc)
  · rcases List.mem_append.mp hy with hy | hy
    · exact hg.mem_vars_or_isTerminal (mem_rulesOf_of_chosenRule hc) hy
    · exact h.declared y (List.mem_cons_of_mem _ hy)

/-- A terminal that is dealt with takes the current token. -/
theorem Tracks.take {x : Symbol} {unread : List Symbol} {node : Nat}
    (h : p.Tracks s (x :: unread)) (hx : x ∉ p.grammar.vars)
    (hu : (p.current s).unit = p.unitOf x) :
    p.Tracks { s with cursor := s.cursor + 1, tree := s.tree.grow node x (some (p.current s)) }
      unread := by
  have hmatched := ParseTree.matched_grow_some s.tree node x (p.current s)
  refine ⟨?_, ?_, ?_, fun y hy => h.declared y (List.mem_cons_of_mem _ hy)⟩
  · dsimp only
    rw [hmatched, h.replays, List.append_assoc, List.singleton_append]
  · dsimp only
    rw [hmatched, isWord_append]
    refine ⟨h.word, fun y hy => ?_⟩
    rw [List.mem_singleton.mp hy]
    exact h.isTerminal hx
  · dsimp only
    rw [hmatched, List.map_append, h.units, List.range_succ, List.map_append, List.map_singleton,
      List.map_singleton, ← hu, current]

/-- A move keeps the trace in step with what is matched and unread. -/
theorem Tracks.move (hg : p.grammar.Closed) {stack frames : List Frame} {next : ParseState}
    (h : p.Tracks s (stack.flatMap Frame.unread)) (hm : p.Move s stack next frames) :
    p.Tracks next (frames.flatMap Frame.unread) := by
  cases hm with
  | leave => exact h
  | vanish mem chosen => exact h.expand hg s.tree chosen rfl
  | @enter node k x body unread below mem chosen ne =>
    have hnext := h.expand hg _ chosen (s.tree.matched_grow_none node x)
    rw [Grammar.spelled_of_mem_rulesOf (mem_rulesOf_of_chosenRule chosen) ne] at hnext
    exact hnext
  | take notMem unit => exact h.take notMem unit

/-- Every configuration that is visited is tracked. -/
theorem tracks_of_visits (hg : p.grammar.Closed) {stack : List Frame} (h : p.Visits s stack) :
    p.Tracks s (stack.flatMap Frame.unread) := by
  refine @Visits.invariant p (fun s stack => p.Tracks s (stack.flatMap Frame.unread))
    ?_ (fun _ _ _ _ _ hs hm => hs.move hg hm) s stack h
  intro k body hc hb
  have hopen := (tracks_start p).expand hg (p.openedState k).tree hc rfl
  rw [Grammar.spelled_of_mem_rulesOf (mem_rulesOf_of_chosenRule hc) hb] at hopen
  exact hopen

/-- Every configuration of a parse is tracked. -/
theorem tracks_of_pending (hg : p.grammar.Closed) {unread : List Symbol}
    (h : p.Pending s unread) : p.Tracks s unread := by
  cases h with
  | start => exact tracks_start p
  | vanished expanded =>
    rcases expand_eq_ok expanded with ⟨k, hc, hs, -⟩ | ⟨k, body, -, -, -, hf⟩
    · rw [hs]
      exact (tracks_start p).expand hg {} hc rfl
    · cases hf
  | visited visited => exact tracks_of_visits hg visited

/-- Where every variable is productive, what is unread generates something:
the matched terminals begin a sentence. -/
theorem Tracks.beginsSentence (hg : p.grammar.Closed)
    (hp : ∀ a ∈ p.grammar.vars, Productive p.grammar.rulesOf a) {unread : List Symbol}
    (h : p.Tracks s unread) : p.grammar.BeginsSentence s.tree.matched := by
  have hproductive : ∀ x ∈ unread, Productive p.grammar.rulesOf x := by
    intro x hx
    rcases h.declared x hx with hv | ht
    · exact hp x hv
    · refine productive_of_not_nonterminal ?_
      cases x with
      | terminal t => rfl
      | epsilon => cases ht
      | nonterminal n => cases ht
  obtain ⟨rest, hrest⟩ := exists_yields hproductive
  have hyields := Yields.of_derives (hg.derives_of_replay h.replays) (h.word.yields.append hrest)
  exact ⟨rest, (generates_nonterminal
    (hg.vars_nonterminal _ p.grammar.valid.start_mem)).mpr hyields⟩

/-- A descent ends at a configuration of the parse: everything is read, or
the symbol in front of what is unread is rejected. -/
theorem Ends.pending {result : Except SyntaxError (Option Nat)} (h : p.Ends s result) :
    ∃ unread, p.Pending s unread ∧ match result with
      | .ok _ => unread = []
      | .error e => ∃ x rest, unread = x :: rest ∧ p.Rejects s x e := by
  cases h with
  | refused rejects => exact ⟨_, .start, p.grammar.start, [], rfl, rejects⟩
  | vanished chosen =>
    refine ⟨[], .vanished ?_, rfl⟩
    rw [expand, chosen]
    rfl
  | read visited => exact ⟨_, .visited visited, rfl⟩
  | @stuck _ node x unread below _ visited rejects =>
    exact ⟨_, .visited visited, x, unread ++ below.flatMap Frame.unread, rfl, rejects⟩

end

/-- At every step of a parse and in the state that it leaves, the trace is
the beginning of a leftmost derivation: it leads from the start symbol to
the matched terminals followed by what is unread. A parse that succeeds, or
lacks nothing but the end of the stream, has left nothing unread; otherwise
the rejected symbol comes first among what is unread. If useless symbols were
removed, the matched terminals begin a sentence of the reduced grammar. -/
theorem make_trace_derives {settings : Settings} {g : Grammar} {units : Option UnitMap}
    {tokens : List Token} {p : Parser} (hg : g.Closed)
    (hp : make settings g units tokens = .ok p) :
    (∀ s unread, p.Pending s unread → p.Tracks s unread ∧
      (settings.removeUseless = true → p.grammar.BeginsSentence s.tree.matched)) ∧
    ∀ limit o, p.parseWithin limit = some o → ∃ unread, p.Tracks o.state unread ∧
      (settings.removeUseless = true → p.grammar.BeginsSentence o.state.tree.matched) ∧
      match o.result with
      | .ok _ => unread = []
      | .error e =>
        (unread = [] ∧ e = .mismatch p.stream.endUnit (p.current o.state)) ∨
        ∃ x rest, unread = x :: rest ∧ p.Rejects o.state x e := by
  have hclosed := (hg.reduce (made_of_make hp).reduced).1
  have hproductive := (hg.reduce (made_of_make hp).reduced).2
  have tracked : ∀ s unread, p.Pending s unread → p.Tracks s unread ∧
      (settings.removeUseless = true → p.grammar.BeginsSentence s.tree.matched) := by
    intro s unread hs
    have ht := tracks_of_pending hclosed hs
    exact ⟨ht, fun hon => ht.beginsSentence hclosed (hproductive hon)⟩
  refine ⟨tracked, fun limit o ho => ?_⟩
  obtain ⟨last, result, hend, rfl⟩ := ends_of_parseWithin ho
  obtain ⟨unread, hpending, hresult⟩ := hend.pending
  obtain ⟨ht, hviable⟩ := tracked last unread hpending
  cases result with
  | error e => exact ⟨unread, ht, hviable, .inr hresult⟩
  | ok root =>
    -- setting the root changes neither the trace nor what was matched
    have hrooted : p.Tracks { last with tree := last.tree.setRoot root } unread :=
      ⟨ht.replays, ht.word, ht.units, ht.declared⟩
    rw [conclude]
    dsimp only
    split
    · exact ⟨unread, hrooted, hviable, .inl ⟨hresult, rfl⟩⟩
    · exact ⟨unread, hrooted, hviable, hresult⟩

/-- In `x + + x` the second sign is rejected: what was matched before it
begins a sentence of the reduced grammar of sums. -/
theorem make_trace_derives_sums :
    Grammar.sums.Closed ∧
    ∃ p o, make {} Grammar.sums none (Token.ofNames ["x", "+", "+", "x", "end"]) = .ok p ∧
      p.parseWithin 20 = some o ∧ o.state.tree.matched = [.terminal "x", .terminal "+"] ∧
      p.grammar.BeginsSentence [.terminal "x", .terminal "+"] := by
  have hrun : ((make {} Grammar.sums none (Token.ofNames ["x", "+", "+", "x", "end"])).toOption.bind
      fun p => (p.parseWithin 20).map fun o => o.state.tree.matched) =
      some [.terminal "x", .terminal "+"] := by
    decide +kernel
  obtain ⟨p, hmake, hparse⟩ := exists_of_make_bind hrun
  obtain ⟨o, ho, hmatched⟩ := Option.map_eq_some_iff.mp hparse
  obtain ⟨-, ends⟩ := make_trace_derives Grammar.sums_closed hmake
  obtain ⟨unread, -, hbegins, -⟩ := ends 20 o ho
  rw [hmatched] at hbegins
  exact ⟨Grammar.sums_closed, p, o, hmake, ho, hmatched, hbegins rfl⟩

end Parser

end PredictiveParsing
