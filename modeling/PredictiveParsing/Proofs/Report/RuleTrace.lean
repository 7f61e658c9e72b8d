import PredictiveParsing.Proofs.Descent.Moves
import PredictiveParsing.Proofs.Grammar.Names
import PredictiveParsing.Proofs.Grammar.RuleNumbers
import PredictiveParsing.Report.Parse

/-!
# The rows of a rule trace

A descent notes rules by their numbers, and a report looks the numbers up again.
The productions that a descent applies, a variable with the alternative at the
selected place each time, are recorded beside it here, without numbers. Since a
number leads back to the alternative for which it was computed, the rows of the
report show these productions, one row for each, in the order of application, at
every moment of a descent and after its end.
-/

namespace PredictiveParsing

open Grammar Report

namespace Parser

/-- The production that the expansion of a variable applies: the variable with
the alternative at the selected place. -/
def alternative? (p : Parser) (a : Symbol) (s : ParseState) : Option (Symbol × Body) :=
  (p.select a (p.current s).unit).bind fun i =>
    (p.grammar.rulesOf a)[i]?.map fun body => (a, body)

/-- The production that a step applies: none unless a variable is in front. -/
def production? (p : Parser) (s : ParseState) : List Frame → Option (Symbol × Body)
  | ⟨_, x :: _⟩ :: _ => if x ∈ p.grammar.vars then p.alternative? x s else none
  | _ => none

/-- The configurations of a parse from its beginning, with the productions that
were applied on the way. -/
inductive Applies (p : Parser) : ParseState → List Frame → List (Symbol × Body) → Prop
  /-- Nothing is applied before the start symbol is expanded. -/
  | start : Applies p {} [] []
  /-- The start symbol is expanded: it has vanished, or it has a frame. -/
  | opened {s : ParseState} {frame : Option Frame}
      (expanded : p.expand p.grammar.start {} = .ok (s, frame)) :
      Applies p s frame.toList (p.alternative? p.grammar.start {}).toList
  /-- The descent goes on. -/
  | stepped {s next : ParseState} {stack frames : List Frame} {log : List (Symbol × Body)}
      (applied : Applies p s stack log) (step : p.step s stack = .running next frames) :
      Applies p next frames (log ++ (p.production? s stack).toList)

variable {p : Parser} {s : ParseState}

/-- The production of a chosen rule is applied, and its number leads back to it. -/
theorem alternative?_of_chosenRule {a : Symbol} {k : Nat} {body : Body}
    (h : p.chosenRule a s = some (k, body)) :
    p.alternative? a s = some (a, body) ∧ p.grammar.ruleNumbered? k = some (a, body) := by
  obtain ⟨i, hi, hbody, rfl⟩ := chosenRule_eq_some h
  refine ⟨?_, ruleNumbered?_firstNumber hbody⟩
  rw [alternative?, hi, Option.bind_some, hbody, Option.map_some]

/-- Numbers that lead to the productions that were applied, in their order. -/
def Retraces (p : Parser) (trace : List Nat) (log : List (Symbol × Body)) : Prop :=
  trace.map p.grammar.ruleNumbered? = log.map some

/-- One more number with its production. -/
theorem Retraces.concat {trace : List Nat} {log : List (Symbol × Body)} {a : Symbol} {k : Nat}
    {body : Body} (h : p.Retraces trace log) (hc : p.chosenRule a s = some (k, body)) :
    p.Retraces (trace ++ [k]) (log ++ (p.alternative? a s).toList) := by
  obtain ⟨halternative, hnumber⟩ := alternative?_of_chosenRule hc
  rw [Retraces] at h ⊢
  rw [halternative, Option.toList_some, List.map_append, List.map_append, h, List.map_singleton,
    List.map_singleton, hnumber]

/-- A move notes the number of the production that it applies, if it applies
one. -/
theorem Retraces.move {log : List (Symbol × Body)} {stack frames : List Frame} {next : ParseState}
    (h : p.Retraces s.trace log) (hm : p.Move s stack next frames) :
    p.Retraces next.trace (log ++ (p.production? s stack).toList) := by
  cases hm with
  | leave =>
    rw [production?, Option.toList_none, List.append_nil]
    · exact h
    · intro _ _ _ _ e
      cases e
  | vanish mem chosen =>
    rw [production?, if_pos mem]
    exact h.concat chosen
  | enter mem chosen =>
    rw [production?, if_pos mem]
    exact h.concat chosen
  | take notMem =>
    rw [production?, if_neg notMem, Option.toList_none, List.append_nil]
    exact h

/-- At every moment the trace leads to the productions that were applied. -/
theorem Applies.retraces {stack : List Frame} {log : List (Symbol × Body)}
    (h : p.Applies s stack log) : p.Retraces s.trace log := by
  have nothing : p.Retraces [] [] := rfl
  induction h with
  | start => exact nothing
  | opened expanded =>
    rcases expand_eq_ok expanded with ⟨k, hc, hs, -⟩ | ⟨k, body, hc, -, hs, -⟩
    · rw [hs]
      exact nothing.concat hc
    · rw [hs]
      exact nothing.concat hc
  | stepped _ step ih => exact ih.move (move_of_step step)

/-- Every configuration that is visited is reached by applying productions. -/
theorem Visits.exists_applies {stack : List Frame} (h : p.Visits s stack) :
    ∃ log, p.Applies s stack log := by
  induction h with
  | opened expanded => exact ⟨_, .opened expanded⟩
  | stepped _ step ih =>
    obtain ⟨log, hlog⟩ := ih
    exact ⟨_, hlog.stepped step⟩

/-- So is the state in which a descent ends. -/
theorem Ends.exists_applies {result : Except SyntaxError (Option Nat)} (h : p.Ends s result) :
    ∃ stack log, p.Applies s stack log := by
  cases h with
  | refused => exact ⟨_, _, .start⟩
  | @vanished k chosen =>
    have hexpand : p.expand p.grammar.start {} = .ok ({ trace := [k] }, none) := by
      rw [expand, chosen]
      rfl
    exact ⟨_, _, .opened hexpand⟩
  | read visited => exact ⟨_, visited.exists_applies⟩
  | stuck visited => exact ⟨_, visited.exists_applies⟩

end Parser

namespace Report

/-- What a report writes before the rows of a trace. -/
def traceOpening (style : Style) (title : String) : List String :=
  ["<div class=\"" ++ style.traceClasses ++ "\">",
    "<h3>" ++ Text.escapeMarkup title ++ "</h3>",
    "<table class=\"grammar-table trace-table\" role=\"table\" aria-label=\"Applied rules\">",
    "<thead>",
    "<tr>",
    "<th class=\"grammar-table-header grammar-table-header-primary\" scope=\"col\">Step</th>",
    "<th class=\"grammar-table-header\" scope=\"col\">Rule</th>",
    "<th class=\"grammar-table-header\" scope=\"col\">Production</th>",
    "</tr>",
    "</thead>",
    "<tbody>"]

/-- What a report writes behind them. -/
def traceClosing : List String := ["</tbody>", "</table>", "</div>"]

/-- The row of a production that was applied, with its place in the trace and its
number. -/
def appliedRow (place number : Nat) (production : Symbol × Body) : String :=
  "<tr><td class=\"grammar-table-cell step-number\">" ++ toString place ++ "</td>" ++
    "<td class=\"grammar-table-cell\">" ++ toString number ++ "</td>" ++
    "<td class=\"grammar-table-cell production\">" ++
    Text.escapeMarkup (production.1.text ++ " -> " ++ bodyText production.2) ++ "</td></tr>"

/-- A report on a trace shows the productions that were applied, in rows of their
own and in their order. -/
structure ShowsProductions (g : Grammar) (numbers : List Nat) (log : List (Symbol × Body)) :
    Prop where
  /-- There are as many numbers as productions. -/
  length_eq : numbers.length = log.length
  /-- Unless the style is compact the rows show the productions. -/
  rows : ∀ style title, style.compact = false → numbers ≠ [] → ∃ rows : List String,
    ruleTrace style g title (numbers.map Int.ofNat) =
      Text.lines (traceOpening style title ++ rows ++ traceClosing) ∧
    rows.length = log.length ∧
    ∀ k production, log[k]? = some production →
      ∃ number, numbers[k]? = some number ∧ rows[k]? = some (appliedRow (k + 1) number production)

variable {g : Grammar}

/-- The row of a number shows the rule that has it. -/
theorem traceRow_of_ruleNumbered? {place number : Nat} {rule : Symbol × Body}
    (h : g.ruleNumbered? number = some rule) :
    traceRow g place (Int.ofNat number) = appliedRow place number rule := by
  have htest : (fun r : Nat × Symbol × Body => (r.1 : Int) == Int.ofNat number) =
      fun r => r.1 == number := by
    funext r
    rw [Bool.eq_iff_iff, beq_iff_eq, beq_iff_eq]
    exact Int.ofNat_inj
  obtain ⟨found, hfind, rfl⟩ := Option.map_eq_some_iff.mp h
  have htext : productionText g (Int.ofNat number) =
      found.2.1.text ++ " -> " ++ bodyText found.2.2 := by
    rw [productionText, htest, hfind]
  have hnumber : toString (Int.ofNat number) = toString number := rfl
  unfold traceRow appliedRow
  rw [htext, hnumber]

/-- There is a row for each number. -/
theorem length_traceRows (g : Grammar) (place : Nat) (numbers : List Int) :
    (traceRows g place numbers).length = numbers.length := by
  induction numbers generalizing place with
  | nil => rfl
  | cons number rest ih => rw [traceRows, List.length_cons, List.length_cons, ih]

/-- The rows are counted on. -/
theorem getElem?_traceRows (g : Grammar) (place : Nat) (numbers : List Int) (k : Nat) :
    (traceRows g place numbers)[k]? = numbers[k]?.map (traceRow g (place + k)) := by
  induction numbers generalizing place k with
  | nil => rfl
  | cons number rest ih =>
    cases k with
    | zero => rfl
    | succ k =>
      rw [traceRows, List.getElem?_cons_succ, List.getElem?_cons_succ, ih, Nat.add_assoc,
        Nat.add_comm 1 k]

/-- Numbers that lead to productions are shown as these productions. -/
theorem showsProductions_of_retraces {p : Parser} {numbers : List Nat}
    {log : List (Symbol × Body)} (h : p.Retraces numbers log) :
    ShowsProductions p.grammar numbers log := by
  rw [Parser.Retraces] at h
  have hlength : numbers.length = log.length := by
    rw [← List.length_map p.grammar.ruleNumbered?, h, List.length_map]
  refine ⟨hlength, fun style title hstyle hnumbers =>
    ⟨traceRows p.grammar 1 (numbers.map Int.ofNat), ?_, ?_, fun k production hk => ?_⟩⟩
  · have hne : (numbers.map Int.ofNat).isEmpty = false := by
      cases numbers with
      | nil => exact absurd rfl hnumbers
      | cons => rfl
    unfold ruleTrace traceTable traceOpening traceClosing
    rw [hne, hstyle, if_neg Bool.false_ne_true, if_neg Bool.false_ne_true]
    simp only [List.append_assoc, List.cons_append, List.nil_append]
  · rw [length_traceRows, List.length_map, hlength]
  · have hnumber : (numbers.map p.grammar.ruleNumbered?)[k]? = some (some production) := by
      rw [h, List.getElem?_map, hk, Option.map_some]
    rw [List.getElem?_map] at hnumber
    obtain ⟨number, hget, hrule⟩ := Option.map_eq_some_iff.mp hnumber
    refine ⟨number, hget, ?_⟩
    rw [getElem?_traceRows, List.getElem?_map, hget, Option.map_some, Option.map_some,
      traceRow_of_ruleNumbered? hrule, Nat.add_comm 1 k]

end Report

/-- Rule numbering is a bijection between the alternatives of a grammar and the
numbers up to their count, with an explicit order or without and with variables
that have no rules. So the report on a trace shows the productions that were
applied, at every moment of a parse and in the state that it leaves, whether it
succeeds or fails. -/
theorem Parser.ruleTrace_shows_productions :
    (∀ g : Grammar, g.Numbers) ∧
    ∀ p : Parser,
      (∀ s stack log, p.Applies s stack log → ShowsProductions p.grammar s.trace log) ∧
      ∀ limit o, p.parseWithin limit = some o → ∃ last result stack log,
        p.Ends last result ∧ o = p.conclude ⟨last, result⟩ ∧ p.Applies last stack log ∧
        ShowsProductions p.grammar o.state.trace log := by
  refine ⟨Grammar.numbers, fun p => ⟨fun s stack log h => showsProductions_of_retraces h.retraces,
    fun limit o ho => ?_⟩⟩
  obtain ⟨last, result, hend, rfl⟩ := ends_of_parseWithin ho
  obtain ⟨stack, log, happlies⟩ := hend.exists_applies
  refine ⟨last, result, stack, log, hend, rfl, happlies, ?_⟩
  have htrace : (p.conclude ⟨last, result⟩).state.trace = last.trace := by
    rw [conclude]
    cases result with
    | error e => rfl
    | ok root =>
      dsimp only
      split
      · rfl
      · rfl
  rw [htrace]
  exact showsProductions_of_retraces happlies.retraces

namespace Grammar

/-- Comparisons, displayed from the inside out, with a variable without rules in
front. -/
def comparisons : Grammar :=
  ⟨componentsOfNames ["E", "R", "T", "U"] ["<", "x"]
    [("E", [["T", "R"]]), ("R", [["<", "T", "R"], ["epsilon"]]), ("T", [["x"]])] "E"
    (some ["U", "T", "R", "E"]), by decide +kernel⟩

/-- One variable with the same alternative twice. -/
def repeatedRule : Grammar :=
  ⟨componentsOfNames ["S"] ["x"] [("S", [["x"], ["x"]])] "S" none, by decide +kernel⟩

/-- The first rule is equal to the second alternative, and the number of the second
alternative is two: from what stands at a place its number does not follow for
every alternative with these symbols. -/
theorem not_numberedRules_iff_repeatedRule :
    ¬∀ n a (i : Nat), (∃ body, (repeatedRule.rulesOf a)[i]? = some body ∧
        repeatedRule.numberedRules[n]? = some (n + 1, a, body)) ↔
      a ∈ repeatedRule.vars ∧ i < (repeatedRule.rulesOf a).length ∧
        repeatedRule.ruleNumber a i = .ok (n + 1 : Nat) := by
  intro h
  have hfirst : (repeatedRule.rulesOf (.nonterminal "S"))[1]? = some [.terminal "x"] ∧
      repeatedRule.numberedRules[0]? = some (1, .nonterminal "S", [.terminal "x"]) := by
    decide +kernel
  have hnumber : repeatedRule.ruleNumber (.nonterminal "S") (1 : Nat) ≠ .ok (0 + 1 : Nat) := by
    decide +kernel
  exact hnumber ((h 0 (.nonterminal "S") 1).mp ⟨_, hfirst⟩).2.2

end Grammar

/-- The parse of `x < x` applies five rules, and the report on it shows the five
productions. The variable without rules takes no number. -/
theorem Parser.ruleTrace_shows_productions_comparisons : comparisons.Numbers ∧
    ∃ p o, make { removeUseless := false } comparisons none
        (Token.ofNames ["x", "<", "x", "end"]) = .ok p ∧
      p.parseWithin 40 = some o ∧ o.result = .ok () ∧ o.state.trace = [4, 1, 2, 1, 3] ∧
      ∃ last result stack log, p.Ends last result ∧ o = p.conclude ⟨last, result⟩ ∧
        p.Applies last stack log ∧ ShowsProductions p.grammar [4, 1, 2, 1, 3] log := by
  have hrun : ((make { removeUseless := false } comparisons none
      (Token.ofNames ["x", "<", "x", "end"])).toOption.bind fun p =>
        (p.parseWithin 40).map fun o => (o.result, o.state.trace)) =
      some (.ok (), [4, 1, 2, 1, 3]) := by
    decide +kernel
  obtain ⟨p, hmake, hparse⟩ := exists_of_make_bind hrun
  obtain ⟨o, ho, hvalues⟩ := Option.map_eq_some_iff.mp hparse
  obtain ⟨hok, htrace⟩ := Prod.mk.inj hvalues
  obtain ⟨numbered, shows⟩ := ruleTrace_shows_productions
  obtain ⟨last, result, stack, log, hend, hconclude, happlies, hrows⟩ := (shows p).2 40 o ho
  rw [htrace] at hrows
  exact ⟨numbered comparisons, p, o, hmake, ho, hok, htrace, last, result, stack, log, hend,
    hconclude, happlies, hrows⟩

end PredictiveParsing
