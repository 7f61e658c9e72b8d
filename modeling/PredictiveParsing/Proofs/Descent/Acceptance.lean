import PredictiveParsing.Proofs.Descent.Halting

/-!
# A deterministic parser accepts exactly the sentences

A parser without conflicts whose lookahead sets are exact decides its
language: a parse halts, it succeeds on the units of sentences and on nothing
else, and where it fails no sentence begins with the tokens up to the
rejected one.
-/

namespace PredictiveParsing.Parser

variable {p : Parser} {s : ParseState}

/-- A string whose units, with the end marker behind them, begin with the
tokens up to the current one agrees with them. -/
theorem Made.agrees_of_isPrefix {settings : Settings} {g : Grammar} {units : Option UnitMap}
    {tokens : List Token} (hp : Made settings g units tokens p)
    (hs : s.cursor < p.stream.size) {y : List Symbol}
    (h : ((tokens.take (s.cursor + 1)).map Token.unit) <+: y.map p.unitOf ++ [p.stream.endUnit]) :
    p.Agrees s y := by
  intro i hi
  have hsize := hp.size_eq
  have htoken : tokens[i]? = some (p.stream.token i) := hp.token_eq_of_lt (by omega)
  have hlength : i < ((tokens.take (s.cursor + 1)).map Token.unit).length := by
    rw [List.length_map, List.length_take]
    omega
  obtain ⟨rest, hrest⟩ := h
  rw [← hrest, List.getElem?_append_left hlength, List.getElem?_map,
    List.getElem?_take_of_lt (by omega), htoken, Option.map_some]

/-- A string that has the units of all tokens before the end marker agrees
with them everywhere. -/
theorem Made.agrees_of_map_eq {settings : Settings} {g : Grammar} {units : Option UnitMap}
    {w : List Token} {marker : Token} (hp : Made settings g units (w ++ [marker]) p)
    (hs : s.cursor < p.stream.size) {y : List Symbol}
    (h : y.map p.unitOf = w.map Token.unit) : p.Agrees s y := by
  refine hp.agrees_of_isPrefix hs ?_
  have htokens : (w ++ [marker]).map Token.unit = y.map p.unitOf ++ [p.stream.endUnit] := by
    rw [List.map_append, List.map_singleton, h, hp.marker_unit]
  rw [← htokens]
  exact (List.take_prefix _ _).map Token.unit

/-- Where the symbol in front is rejected no sentence agrees with the
tokens. -/
theorem Anticipates.not_agrees (d : p.Predictive) {x : Symbol} {levels : List Body}
    (ht : p.Tracks s (x :: levels.flatten)) (h : p.Anticipates s (x :: levels.flatten))
    (hn : p.grammar.Nested x levels) {e : SyntaxError} (hr : p.Rejects s x e) {y : List Symbol}
    (hy : Generates p.grammar.rulesOf [p.grammar.start] y) : ¬p.Agrees s y := by
  intro hagrees
  cases hr with
  | head mem none =>
    obtain ⟨i, body, own, after, hi, hget, -⟩ := h.select d ht hn mem hy hagrees
    rw [chosenRule, hi, Option.map_some] at none
    cases none
  | unit notMem ne =>
    have hterminal := ht.isTerminal notMem
    obtain ⟨z, hz, hyields⟩ := h y hy hagrees
    have hunit := ht.unit_current hagrees hz
    cases hyields with
    | epsilon => cases hterminal
    | expand => cases hterminal
    | terminal => exact ne hunit

/-- What a descent that ends with an error says: the current token is
rejected, and no sentence agrees with the tokens up to it. -/
theorem Predictive.of_ends_error (d : p.Predictive) {e : SyntaxError}
    (h : p.Ends s (.error e)) : s.cursor < p.stream.size ∧ e.token = p.current s ∧
      ∀ y, Generates p.grammar.rulesOf [p.grammar.start] y → ¬p.Agrees s y := by
  cases h with
  | refused rejects =>
    refine ⟨p.stream.nonempty, rejects.token, fun y hy => ?_⟩
    have ht : p.Tracks {} (p.grammar.start :: List.flatten []) := tracks_start p
    have ha : p.Anticipates {} (p.grammar.start :: List.flatten []) := anticipates_start d.closed
    exact ha.not_agrees d ht .start rejects hy
  | stuck visited rejects =>
    refine ⟨d.cursor_lt visited, rejects.token, fun y hy => ?_⟩
    have ht := tracks_of_visits d.closed visited
    have ha := d.anticipates visited
    exact ha.not_agrees d ht (underway_of_visits visited).nested rejects hy

/-- What a descent that ends without an error says: what was matched is
everything, and every sentence that agrees with the tokens is just that. -/
theorem Predictive.of_ends_ok (d : p.Predictive) {root : Option Nat}
    (h : p.Ends s (.ok root)) :
    s.cursor < p.stream.size ∧ p.Tracks s [] ∧ p.Anticipates s [] := by
  cases h with
  | @vanished k chosen =>
    have ht := (tracks_start p).expand d.closed {} chosen rfl
    have ha : p.Anticipates { trace := [k] } (Body.spelled epsilonBody ++ List.flatten []) :=
      (anticipates_start d.closed).expand d (tracks_start p) .start chosen _ rfl rfl
    exact ⟨p.stream.nonempty, ht, ha⟩
  | read visited =>
    exact ⟨d.cursor_lt visited, tracks_of_visits d.closed visited, d.anticipates visited⟩

/-- What was matched by a descent that has read everything is a sentence. -/
theorem Tracks.generates (hg : p.grammar.Closed) (h : p.Tracks s []) :
    Generates p.grammar.rulesOf [p.grammar.start] s.tree.matched := by
  have hreplays := h.replays
  rw [List.append_nil] at hreplays
  exact ⟨hg.derives_of_replay hreplays, h.word⟩

/-- A descent that has read everything and stands at the end marker has
matched the units of all tokens before it. -/
theorem Made.map_unit_eq {settings : Settings} {g : Grammar} {units : Option UnitMap}
    {w : List Token} {marker : Token} (hp : Made settings g units (w ++ [marker]) p)
    (hw : ∀ token ∈ w, token.unit ≠ marker.unit) (hs : s.cursor < p.stream.size)
    (h : p.Tracks s []) (hend : (p.current s).unit = p.stream.endUnit) :
    s.tree.matched.map p.unitOf = w.map Token.unit := by
  have hsize : p.stream.size = w.length + 1 := by
    rw [hp.size_eq, List.length_append, List.length_singleton]
  have htoken : ∀ i, i < w.length → w[i]? = some (p.stream.token i) := by
    intro i hi
    have hlt : i < (w ++ [marker]).length := by
      rw [← hp.size_eq]
      omega
    rw [← hp.token_eq_of_lt hlt, List.getElem?_append_left hi]
  have hcursor : s.cursor = w.length := by
    by_contra hne
    have hmem : p.current s ∈ w := List.mem_of_getElem? (htoken s.cursor (by omega))
    exact hw _ hmem (hend.trans hp.marker_unit.symm)
  rw [h.units, hcursor]
  refine List.ext_getElem? fun i => ?_
  by_cases hi : i < w.length
  · rw [List.getElem?_map, List.getElem?_map, htoken i hi, List.getElem?_range hi,
      Option.map_some, Option.map_some]
  · have hw : (w.map Token.unit).length ≤ i := by
      rw [List.length_map]
      omega
    have hr : ((List.range w.length).map fun i => (p.stream.token i).unit).length ≤ i := by
      rw [List.length_map, List.length_range]
      omega
    rw [List.getElem?_eq_none hr, List.getElem?_eq_none hw]

/-- A failure at a token with which no sentence agrees: the tokens before the
marker are no sentence, and the token of the error continues none. -/
theorem Made.refuses {settings : Settings} {g : Grammar} {units : Option UnitMap}
    {w : List Token} {marker : Token} (hp : Made settings g units (w ++ [marker]) p)
    (hs : s.cursor < p.stream.size) {e : SyntaxError} (htoken : e.token = p.current s)
    (hnone : ∀ y, Generates p.grammar.rulesOf [p.grammar.start] y → ¬p.Agrees s y) :
    (¬∃ y, Generates p.grammar.rulesOf [p.grammar.start] y ∧
      y.map p.unitOf = w.map Token.unit) ∧
    ∀ cause, (.error e : Except SyntaxError Unit) = .error cause →
      (w ++ [marker])[s.cursor]? = some cause.token ∧
      ∀ y, Generates p.grammar.rulesOf [p.grammar.start] y →
        ¬((w ++ [marker]).take (s.cursor + 1)).map Token.unit <+:
          y.map p.unitOf ++ [marker.unit] := by
  constructor
  · intro ⟨y, hy, hunits⟩
    exact hnone y hy (hp.agrees_of_map_eq hs hunits)
  · intro cause hcause
    rw [← Except.error.inj hcause, htoken]
    refine ⟨hp.token_eq_of_lt (by rw [← hp.size_eq]; exact hs), ?_⟩
    intro y hy hbegins
    rw [hp.marker_unit] at hbegins
    exact hnone y hy (hp.agrees_of_isPrefix hs hbegins)

namespace Deterministic

/-- With exact lookahead sets a parse halts. -/
theorem exists_parse (d : p.Deterministic) : ∃ o, p.parse = some o := d.predictive.exists_parse

/-- With exact lookahead sets no sentence agrees with a token at which the
descent ends with an error. -/
theorem of_ends_error (d : p.Deterministic) {e : SyntaxError} (h : p.Ends s (.error e)) :
    s.cursor < p.stream.size ∧ e.token = p.current s ∧
      ∀ y, Generates p.grammar.rulesOf [p.grammar.start] y → ¬p.Agrees s y :=
  d.predictive.of_ends_error h

/-- With exact lookahead sets what was matched is everything where the descent
ends without an error. -/
theorem of_ends_ok (d : p.Deterministic) {root : Option Nat} (h : p.Ends s (.ok root)) :
    s.cursor < p.stream.size ∧ p.Tracks s [] ∧ p.Anticipates s [] :=
  d.predictive.of_ends_ok h

end Deterministic

/-- A parser whose grammar has exact lookahead sets and a table without
conflicts, and whose units tell the terminals of the grammar from each other
and from the end marker, decides the sentences of the grammar. On tokens that
end with the only marker a parse that demands the end of the stream halts; it
succeeds exactly if the tokens before the marker have the units of a sentence;
and the token of an error continues no sentence: none, with the marker behind
it, begins with the tokens up to that one. -/
theorem make_parse_decides {settings : Settings} {g : Grammar} {units : Option UnitMap}
    {w : List Token} {marker : Token} {p : Parser}
    (hp : make settings g units (w ++ [marker]) = .ok p)
    (hdemand : settings.requireEndOfStream = true) (hclosed : p.grammar.Closed)
    (hexact : p.grammar.ExactLookahead) (hll : p.isLL 1 = true)
    (hinjective : ∀ t u, t.isTerminal = true → u.isTerminal = true → p.grammar.Occurs t →
      p.grammar.Occurs u → p.unitOf t = p.unitOf u → t = u)
    (hmarker : ∀ t, t.isTerminal = true → p.grammar.Occurs t → p.unitOf t ≠ marker.unit)
    (hw : ∀ token ∈ w, token.unit ≠ marker.unit) :
    ∃ o, p.parse = some o ∧
      (o.result = .ok () ↔ ∃ y, Generates p.grammar.rulesOf [p.grammar.start] y ∧
        y.map p.unitOf = w.map Token.unit) ∧
      ∀ e, o.result = .error e → (w ++ [marker])[o.state.cursor]? = some e.token ∧
        ∀ y, Generates p.grammar.rulesOf [p.grammar.start] y →
          ¬((w ++ [marker]).take (o.state.cursor + 1)).map Token.unit <+:
            y.map p.unitOf ++ [marker.unit] := by
  have hmade := made_of_make hp
  have d : p.Deterministic :=
    ⟨hclosed, hexact, hmade.table_eq, hll, hinjective,
      fun t ht ho => hmade.marker_unit ▸ hmarker t ht ho⟩
  obtain ⟨o, ho⟩ := d.exists_parse
  obtain ⟨last, result, hends, heq⟩ := ends_of_parseWithin ho
  refine ⟨o, ho, ?_⟩
  cases result with
  | error e =>
    obtain ⟨hcursor, htoken, hnone⟩ := d.of_ends_error hends
    obtain ⟨hno, herror⟩ := hmade.refuses hcursor htoken hnone
    rw [heq]
    exact ⟨iff_of_false (fun h => by cases h) hno, herror⟩
  | ok root =>
    obtain ⟨hcursor, htracks, hanticipates⟩ := d.of_ends_ok hends
    rw [conclude] at heq
    dsimp only at heq
    split at heq
    · next hunit =>
      -- a sentence that agrees with the tokens ends where the descent has ended
      have hnone : ∀ y, Generates p.grammar.rulesOf [p.grammar.start] y → ¬p.Agrees last y := by
        intro y hy hagrees
        obtain ⟨z, hz, hyields⟩ := hanticipates y hy hagrees
        have hz0 : z = [] := by
          cases hyields
          rfl
        have hahead := htracks.unit_current hagrees hz
        rw [hz0] at hahead
        exact hunit.2 hahead
      have htoken : (SyntaxError.mismatch p.stream.endUnit (p.current last)).token =
        p.current last := rfl
      obtain ⟨hno, herror⟩ := hmade.refuses hcursor htoken hnone
      rw [heq]
      exact ⟨iff_of_false (fun h => by cases h) hno, herror⟩
    · next hunit =>
      have hcurrent : (p.current last).unit = p.stream.endUnit := by
        by_contra hne
        exact hunit ⟨hmade.settings_eq ▸ hdemand, hne⟩
      have hunits := hmade.map_unit_eq hw hcursor htracks hcurrent
      rw [heq]
      refine ⟨iff_of_true rfl ⟨last.tree.matched, htracks.generates d.closed, hunits⟩, ?_⟩
      intro e he
      cases he

/-- The parser of sums decides, and `x + x` is one. -/
theorem make_parse_decides_sums :
    ∃ p, make {} Grammar.sums none (Token.ofNames ["x", "+", "x"] ++ Token.ofNames ["end"]) =
        .ok p ∧ p.grammar.ExactLookahead ∧ p.isLL 1 = true ∧
      ∃ y, Generates p.grammar.rulesOf [p.grammar.start] y ∧
        y.map p.unitOf = (Token.ofNames ["x", "+", "x"]).map Token.unit := by
  have hrun : ((make {} Grammar.sums none
      (Token.ofNames ["x", "+", "x"] ++ Token.ofNames ["end"])).toOption.bind fun p =>
        some (p.grammar.rules.entries.all fun entry => entry.2.all p.grammar.looksAhead,
          p.grammar.rules.entries.all fun entry =>
            entry.2.all fun body => decide (Symbol.terminal "end" ∉ body),
          p.isLL 1, p.parse.map fun o => o.result.toOption)) =
      some (true, true, true, some (some ())) := by
    decide +kernel
  obtain ⟨p, hmake, hp⟩ := exists_of_make_bind hrun
  obtain ⟨hahead, hrest⟩ := Prod.mk.inj (Option.some.inj hp)
  obtain ⟨hnoend, hrest⟩ := Prod.mk.inj hrest
  obtain ⟨hll, hparse⟩ := Prod.mk.inj hrest
  have hmade := made_of_make hmake
  have hclosed : p.grammar.Closed := (Grammar.sums_closed.reduce hmade.reduced).1
  have hexact := hclosed.exactLookahead hahead
  have hinjective : ∀ t u, t.isTerminal = true → u.isTerminal = true →
      p.grammar.Occurs t → p.grammar.Occurs u → p.unitOf t = p.unitOf u → t = u :=
    fun t u ht hu _ _ h => eq_of_unitOf_eq hmade.units_eq ht hu h
  have hmarker : ∀ t, t.isTerminal = true → p.grammar.Occurs t →
      p.unitOf t ≠ LexicalUnit.named "end" := by
    intro t ht ⟨a, body, hbody, hx⟩ h
    have hend := unitOf_terminal hmade.units_eq "end"
    rw [eq_of_unitOf_eq hmade.units_eq ht rfl (h.trans hend.symm)] at hx
    exact of_decide_eq_true (Components.forall_mem_rulesOf_of_all hnoend a body hbody) hx
  obtain ⟨o, ho, hiff, -⟩ := make_parse_decides hmake rfl hclosed hexact hll hinjective hmarker
    (by decide)
  rw [ho] at hparse
  have hok : o.result = .ok () := Outcome.eq_ok_of_toOption (Option.some.inj hparse)
  exact ⟨p, hmake, hexact, hll, hiff.mp hok⟩

end PredictiveParsing.Parser
