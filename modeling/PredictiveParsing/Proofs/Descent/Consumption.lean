import PredictiveParsing.Proofs.Descent.Prediction
import PredictiveParsing.Proofs.Descent.Tree

/-!
# What a parse takes from the stream

The end marker is the last token, whatever its unit. Who reads beyond it
meets it again, so that a grammar with a terminal of that unit may take it,
and may take it more than once. Where no terminal has that unit, a parse that
succeeds stops before the marker and has taken every token before its cursor
once, in their order.
-/

namespace PredictiveParsing

/-- A state has taken the first tokens of a stream, each of them once, and
not the end marker, which is the last one. -/
structure ParseState.TakesOnce (s : ParseState) (tokens : List Token) : Prop where
  /-- The cursor does not pass the end marker. -/
  cursor_le : s.cursor ≤ tokens.length - 1
  /-- The leaves carry the tokens before the cursor. -/
  leaves : s.tree.leaves none = .ok ((tokens.take s.cursor).map some)

namespace Grammar

/-- Two `x`, or nothing. -/
def pairOrNothing : Grammar :=
  ⟨componentsOfNames ["S"] ["x"] [("S", [["x", "x"], ["epsilon"]])] "S" none, by decide +kernel⟩

theorem pairOrNothing_closed : pairOrNothing.Closed := closed_of_componentsOfNames rfl

end Grammar

namespace Parser

variable {p : Parser} {s : ParseState} {settings : Settings} {g : Grammar}
  {units : Option UnitMap} {tokens : List Token}

/-- A descent that ends where no terminal has the unit of the end marker has
not passed the marker. -/
theorem Ends.cursor_lt (hg : p.grammar.Closed)
    (hend : ∀ t, t.isTerminal = true → p.grammar.Occurs t → p.unitOf t ≠ p.stream.endUnit)
    {result : Except SyntaxError (Option Nat)} (h : p.Ends s result) :
    s.cursor < p.stream.size := by
  cases h with
  | refused => exact p.stream.nonempty
  | vanished => exact p.stream.nonempty
  | read visited => exact visited.cursor_lt hg hend
  | stuck visited => exact visited.cursor_lt hg hend

/-- Before the end the stream shows the tokens that were given. -/
theorem Made.map_token_range (h : Made settings g units tokens p) {k : Nat}
    (hk : k ≤ tokens.length) :
    ((List.range k).map fun i => some (p.stream.token i)) = (tokens.take k).map some := by
  refine List.ext_getElem ?_ fun i hi hi' => ?_
  · rw [List.length_map, List.length_range, List.length_map, List.length_take,
      Nat.min_eq_left hk]
  · rw [List.length_map, List.length_range] at hi
    have htoken := h.token_eq_of_lt (Nat.lt_of_lt_of_le hi hk)
    rw [List.getElem_map, List.getElem_range, List.getElem_map, List.getElem_take, ← htoken]
    exact List.getElem?_eq_getElem _

/-- A parse that succeeds has taken each token before its cursor once, and
not the end marker, if no terminal of the reduced grammar has the unit of the
marker. -/
theorem make_parse_takesOnce {marker : Token} (hg : g.Closed)
    (hp : make settings g units (tokens ++ [marker]) = .ok p)
    (hmarker : ∀ t, t.isTerminal = true → p.grammar.Occurs t → p.unitOf t ≠ marker.unit)
    {limit : Nat} {o : Outcome Unit} (ho : p.parseWithin limit = some o)
    (hok : o.result = .ok ()) : o.state.TakesOnce (tokens ++ [marker]) := by
  have hmade := made_of_make hp
  have hclosed := (hg.reduce hmade.reduced).1
  rw [hmade.marker_unit] at hmarker
  obtain ⟨last, result, hend, rfl⟩ := ends_of_parseWithin ho
  obtain ⟨root, rfl, hstate⟩ := conclude_eq_ok hok
  have hcursor := hend.cursor_lt hclosed hmarker
  rw [hmade.size_eq] at hcursor
  have htree := hend.isParseTree hclosed
  rw [hstate]
  refine ⟨Nat.le_sub_one_of_lt hcursor, ?_⟩
  rw [htree.leaves]
  exact congrArg Except.ok (hmade.map_token_range (Nat.le_of_lt hcursor))

/-- The sum `x + x` is taken token by token, and the end marker is left. -/
theorem make_parse_takesOnce_sums : Grammar.sums.Closed ∧
    ∃ p o, make {} Grammar.sums none (Token.ofNames ["x", "+", "x"] ++ Token.ofNames ["end"]) =
        .ok p ∧
      (∀ t, t.isTerminal = true → p.grammar.Occurs t → p.unitOf t ≠ .named "end") ∧
      p.parseWithin 20 = some o ∧ o.result = .ok () ∧ o.state.cursor = 3 ∧
      o.state.TakesOnce (Token.ofNames ["x", "+", "x", "end"]) := by
  have hrun : ((make {} Grammar.sums none
      (Token.ofNames ["x", "+", "x"] ++ Token.ofNames ["end"])).toOption.bind fun p =>
        (p.parseWithin 20).map fun o => (o.result.toOption, o.state.cursor,
          p.grammar.rules.entries.all fun entry =>
            entry.2.all fun body => decide (Symbol.terminal "end" ∉ body))) =
      some (some (), 3, true) := by
    decide +kernel
  obtain ⟨p, hmake, hparse⟩ := exists_of_make_bind hrun
  obtain ⟨o, ho, hresult⟩ := Option.map_eq_some_iff.mp hparse
  obtain ⟨hok, hrest⟩ := Prod.mk.inj hresult
  obtain ⟨hcursor, hnoend⟩ := Prod.mk.inj hrest
  have hmarker := unitOf_ne_named (made_of_make hmake).units_eq hnoend
  have hresult : o.result = .ok () := Outcome.eq_ok_of_toOption hok
  exact ⟨Grammar.sums_closed, p, o, hmake, hmarker, ho, hresult, hcursor,
    make_parse_takesOnce Grammar.sums_closed hmake hmarker ho hresult⟩

/-- A single `x` is at once the end marker and a token that two terminals
take: the parse succeeds, with two leaves for the one token. -/
theorem parse_takes_marker_twice : Grammar.pairOrNothing.Closed ∧
    ∃ p o, make {} Grammar.pairOrNothing none (Token.ofNames ["x"]) = .ok p ∧
      p.parse = some o ∧ o.result = .ok () ∧
      ¬o.state.cursor ≤ (Token.ofNames ["x"]).length - 1 ∧
      o.state.tree.leaves none ≠
        .ok (((Token.ofNames ["x"]).take o.state.cursor).map some) := by
  have hrun : ((make {} Grammar.pairOrNothing none (Token.ofNames ["x"])).toOption.bind fun p =>
      p.parse.map fun o => (o.result.toOption, o.state.cursor,
        (o.state.tree.leaves none).toOption.map List.length)) = some (some (), 2, some 2) := by
    decide +kernel
  obtain ⟨p, hmake, hparse⟩ := exists_of_make_bind hrun
  obtain ⟨o, ho, hresult⟩ := Option.map_eq_some_iff.mp hparse
  obtain ⟨hok, hrest⟩ := Prod.mk.inj hresult
  obtain ⟨hcursor, hleaves⟩ := Prod.mk.inj hrest
  refine ⟨Grammar.pairOrNothing_closed, p, o, hmake, ho, Outcome.eq_ok_of_toOption hok, ?_, ?_⟩
  · rw [hcursor]
    decide
  · intro he
    rw [he, hcursor] at hleaves
    cases hleaves

end Parser

end PredictiveParsing
