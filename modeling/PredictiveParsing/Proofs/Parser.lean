import Mathlib.Data.List.Basic
import PredictiveParsing.Parser
import PredictiveParsing.Proofs.Grammar.Validity

/-!
# What a parser is made of

A parser takes over its settings, its units and its tokens; its grammar is
the reduced one and its sets are those of that grammar. An alternative that
it selects is there.
-/

namespace PredictiveParsing

/-- Tokens whose units and values are names. -/
def Token.ofNames (names : List String) : List Token :=
  names.map fun name => { unit := .named name, value := .text name }

namespace Parser

/-- The parts of a parser that is made. -/
structure Made (settings : Settings) (g : Grammar) (units : Option UnitMap)
    (tokens : List Token) (p : Parser) : Prop where
  /-- The settings are kept. -/
  settings_eq : p.settings = settings
  /-- The grammar is reduced. -/
  reduced : g.reduce settings = .ok p.grammar
  /-- The table is that of the reduced grammar. -/
  table_eq : p.table = ActionTable.ofGrammar p.grammar
  /-- The units are kept. -/
  units_eq : p.units = units
  /-- The tokens are kept. -/
  tokens_eq : p.stream.tokens = tokens.toArray

/-- What is made has these parts. -/
theorem made_of_make {settings : Settings} {g : Grammar} {units : Option UnitMap}
    {tokens : List Token} {p : Parser} (h : make settings g units tokens = .ok p) :
    Made settings g units tokens p := by
  rw [make] at h
  cases hs : TokenStream.ofList? tokens with
  | none => rw [hs] at h; cases h
  | some stream =>
    rw [hs] at h
    have htokens : stream.tokens = tokens.toArray := by
      rw [TokenStream.ofList?] at hs
      split at hs
      · rw [← Option.some.inj hs]
      · cases hs
    cases hr : g.reduce settings with
    | error fault => rw [hr] at h; cases h
    | ok reduced =>
      rw [hr] at h
      rw [← Except.ok.inj h]
      exact ⟨rfl, hr, rfl, rfl, htokens⟩

/-- A parser is made wherever something is computed from it. -/
theorem exists_of_make_bind {settings : Settings} {g : Grammar} {units : Option UnitMap}
    {tokens : List Token} {α : Type} {f : Parser → Option α} {a : α}
    (h : (make settings g units tokens).toOption.bind f = some a) :
    ∃ p, make settings g units tokens = .ok p ∧ f p = some a := by
  cases hmake : make settings g units tokens with
  | error fault => rw [hmake] at h; cases h
  | ok p =>
    rw [hmake] at h
    exact ⟨p, rfl, h⟩

/-- A parser has as many tokens as it was given. -/
theorem Made.size_eq {settings : Settings} {g : Grammar} {units : Option UnitMap}
    {tokens : List Token} {p : Parser} (h : Made settings g units tokens p) :
    p.stream.size = tokens.length := by
  rw [TokenStream.size, h.tokens_eq, List.size_toArray]

/-- A parser reads the tokens in their order, and the last one beyond the
end. -/
theorem Made.token_eq {settings : Settings} {g : Grammar} {units : Option UnitMap}
    {tokens : List Token} {p : Parser} (h : Made settings g units tokens p) (j : Nat) :
    tokens[min j (tokens.length - 1)]? = some (p.stream.token j) := by
  have hsize : p.stream.tokens.size = tokens.length := h.size_eq
  have hlt : min j (p.stream.tokens.size - 1) < p.stream.tokens.size := by
    have := p.stream.nonempty
    omega
  have hget : p.stream.tokens[min j (p.stream.tokens.size - 1)]? = some (p.stream.token j) :=
    Array.getElem?_eq_getElem hlt
  rw [← hget, hsize, h.tokens_eq, List.getElem?_toArray]

/-- A place before the end has the token that was given for it. -/
theorem Made.token_eq_of_lt {settings : Settings} {g : Grammar} {units : Option UnitMap}
    {tokens : List Token} {p : Parser} (h : Made settings g units tokens p) {j : Nat}
    (hj : j < tokens.length) : tokens[j]? = some (p.stream.token j) := by
  have hmin : min j (tokens.length - 1) = j := by omega
  have hget := h.token_eq j
  rw [hmin] at hget
  exact hget

/-- The unit that marks the end is that of the last token. -/
theorem Made.endUnit_eq {settings : Settings} {g : Grammar} {units : Option UnitMap}
    {tokens : List Token} {p : Parser} (h : Made settings g units tokens p) :
    tokens.getLast?.map Token.unit = some p.stream.endUnit := by
  have hlast := h.token_eq (tokens.length - 1)
  rw [Nat.min_self] at hlast
  rw [List.getLast?_eq_getElem?, hlast, TokenStream.endUnit, TokenStream.last, h.size_eq,
    Option.map_some]

/-- A marker behind all other tokens has the unit that marks the end. -/
theorem Made.marker_unit {settings : Settings} {g : Grammar} {units : Option UnitMap}
    {w : List Token} {marker : Token} {p : Parser} (h : Made settings g units (w ++ [marker]) p) :
    marker.unit = p.stream.endUnit := by
  have hlast := h.endUnit_eq
  rw [List.getLast?_concat, Option.map_some] at hlast
  exact Option.some.inj hlast

variable {p : Parser}

/-- Without a map of units a terminal stands for its name. -/
theorem unitOf_terminal (h : p.units = none) (n : String) :
    p.unitOf (.terminal n) = .named n := by
  have hne : Symbol.terminal n ≠ .epsilon := fun e => by cases e
  rw [unitOf, if_neg hne, h]
  rfl

/-- Without a map of units terminals differ in their units. -/
theorem eq_of_unitOf_eq (h : p.units = none) {t u : Symbol} (ht : t.isTerminal = true)
    (hu : u.isTerminal = true) (he : p.unitOf t = p.unitOf u) : t = u := by
  cases t with
  | epsilon => cases ht
  | nonterminal n => cases ht
  | terminal n =>
    cases u with
    | epsilon => cases hu
    | nonterminal m => cases hu
    | terminal m =>
      rw [unitOf_terminal h, unitOf_terminal h] at he
      cases he
      rfl

/-- What is selected is an alternative. -/
theorem exists_body_of_select {a : Symbol} {unit : LexicalUnit} {i : Nat}
    (h : p.select a unit = some i) : ∃ body, (p.grammar.rulesOf a)[i]? = some body := by
  have vanishing : p.grammar.hasEpsilonRule a = true →
      (p.grammar.rulesOf a)[(p.grammar.rulesOf a).idxOf epsilonBody]? = some epsilonBody := by
    intro hv
    exact List.getElem?_idxOf (Grammar.hasEpsilonRule_iff.mp hv)
  rw [select] at h
  split at h
  · next hv =>
    rw [Bool.and_eq_true] at hv
    rw [← Option.some.inj h]
    exact ⟨epsilonBody, vanishing hv.1⟩
  · split at h
    · next j hj =>
      have hlt := List.of_findIdx?_eq_some hj
      rw [← Option.some.inj h]
      cases hb : (p.grammar.rulesOf a)[j]? with
      | none => rw [hb] at hlt; cases hlt
      | some body => exact ⟨body, rfl⟩
    · split at h
      · next hv =>
        rw [Bool.and_eq_true] at hv
        rw [← Option.some.inj h]
        exact ⟨epsilonBody, vanishing hv.1⟩
      · cases h

end Parser

end PredictiveParsing
