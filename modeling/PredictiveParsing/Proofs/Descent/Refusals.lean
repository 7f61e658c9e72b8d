import PredictiveParsing.Proofs.Descent.Replay
import PredictiveParsing.Proofs.Lookahead.Selection

/-!
# What the error about a refused variable tells

Where no alternative of a variable accepts the current token, the descent ends
with the state that it had, and with an error that lists units. These are the
units of the terminals in the FIRST set of the variable, and each of them would
have been accepted: a terminal is in that set only because some alternative leads
to it by its leading symbol, and this alternative is selected unless the empty
string is. So the unit of the refused token is not in the list.
-/

namespace PredictiveParsing

open Grammar

namespace Parser

/-- What an error tells about a variable and a token that it refuses. -/
structure Explains (p : Parser) (a : Symbol) (token : Token) (acceptable : List LexicalUnit) :
    Prop where
  /-- The unit of the token is not listed. -/
  refused : token.unit ∉ acceptable
  /-- No unit is listed twice. -/
  nodup : acceptable.Nodup
  /-- The units are listed in the alphabetical order of their names. -/
  sorted : acceptable.Pairwise fun first second => first.name ≤ second.name
  /-- The units are those of the terminals in the FIRST set of the variable, less
  the unit of terminals to which none is assigned. -/
  mem_iff : ∀ unit, unit ∈ acceptable ↔ unit ≠ .none ∧
    ∃ set, p.first.get? a = some set ∧ ∃ t ∈ set, t.isTerminal = true ∧ p.unitOf t = unit
  /-- For a listed unit an alternative is selected. -/
  selects : ∀ unit ∈ acceptable, ∃ i, p.select a unit = some i

variable {p : Parser} {a t : Symbol} {unit : LexicalUnit} {s : ParseState}

/-- The FIRST set of a variable is there, and it is what is looked up. -/
theorem exists_first (hg : p.grammar.Closed) (ht : p.table = ActionTable.ofGrammar p.grammar)
    (ha : a ∈ p.grammar.vars) :
    ∃ set, p.first.get? a = some set ∧ p.grammar.firstTable.lookup a = set := by
  have hfirst : p.first = p.grammar.firstTable := by
    rw [first, ht]
    rfl
  obtain ⟨set, hset⟩ := hg.firstSets.exists_get? (mem_analysedSymbols_of_mem_vars ha)
  refine ⟨set, by rw [hfirst, hset], ?_⟩
  rw [FirstTable.lookup, hset]

/-- The FIRST set of a variable has no members but the empty string and
terminals. -/
theorem isTerminal_of_mem_first (hg : p.grammar.Closed) (ha : a ∈ p.grammar.vars)
    (ht : t ∈ p.grammar.firstTable.lookup a) (hne : t ≠ .epsilon) : t.isTerminal = true := by
  obtain ⟨n, hn⟩ := hg.firstSets.leads hg ht
  have hoccurs : p.grammar.Occurs t :=
    hn.eq_or_occurs.resolve_left fun e => hn.notMem (e ▸ ha)
  exact hg.isTerminal_of_occurs hoccurs hn.notMem hne

/-- A unit that is listed is that of a terminal in the FIRST set. -/
theorem mem_acceptable_iff (hg : p.grammar.Closed)
    (ht : p.table = ActionTable.ofGrammar p.grammar) (ha : a ∈ p.grammar.vars) :
    unit ∈ p.acceptable a ↔ unit ≠ .none ∧
      ∃ t ∈ p.grammar.firstTable.lookup a, t.isTerminal = true ∧ p.unitOf t = unit := by
  obtain ⟨set, hget, hlookup⟩ := exists_first hg ht ha
  rw [acceptable, hget, Option.getD_some, Text.mem_sortBy, List.mem_eraseDups, List.mem_filter,
    bne_iff_ne, List.mem_map, hlookup, and_comm]
  refine and_congr_right fun hunit => exists_congr fun t => and_congr_right fun hmem => ?_
  refine (and_iff_right_of_imp fun hu => ?_).symm
  refine isTerminal_of_mem_first hg ha (hlookup ▸ hmem) fun e => hunit ?_
  -- the empty string has no unit
  rw [← hu, e, unitOf, if_pos rfl]

/-- No unit is listed twice. -/
theorem nodup_acceptable (p : Parser) (a : Symbol) : (p.acceptable a).Nodup :=
  (Text.sortBy_perm _ _).nodup_iff.mpr (nodup_eraseDups _)

/-- The list is in alphabetical order. -/
theorem sorted_acceptable (p : Parser) (a : Symbol) :
    (p.acceptable a).Pairwise fun first second => first.name ≤ second.name :=
  (Text.sortBy_ordered LexicalUnit.name _).imp String.not_lt.mp

/-- For the unit of a terminal in the FIRST set of a variable an alternative is
selected. -/
theorem exists_select_of_mem_first (hg : p.grammar.Closed)
    (htable : p.table = ActionTable.ofGrammar p.grammar) (ha : a ∈ p.grammar.vars)
    (ht : t ∈ p.grammar.firstTable.lookup a) (hterminal : t.isTerminal = true) :
    ∃ i, p.select a (p.unitOf t) = some i := by
  have hne : t ≠ .epsilon := by
    rintro rfl
    cases hterminal
  obtain ⟨n, hn⟩ := hg.firstSets.leads hg ht
  cases hn with
  | self notMem => exact absurd ha notMem
  | @step n _ x _ body mem head tail =>
    -- the alternative that begins the chain can start with the terminal
    have hx : t ∈ p.grammar.firstTable.lookup x := hg.mem_lookup_of_leads tail fun hk =>
      hg.body_declared a body mem x (List.mem_of_head? head) hk
    have hmeets : p.meets (p.leadingSet body) (p.unitOf t) = true := by
      rw [leadingSet_eq_lookup hg htable mem head]
      exact meets_iff.mpr ⟨t, hx, hne, rfl⟩
    by_cases hv : epsilonBody ∈ p.grammar.rulesOf a ∧
        p.meets (p.follow.members a) (p.unitOf t) = true
    · obtain ⟨i, hi, -⟩ := select_of_follow hv.1 hv.2
      exact ⟨i, hi⟩
    · obtain ⟨i, _, hi, -⟩ := select_of_leading hv mem hmeets
      exact ⟨i, hi⟩

/-- The list of a variable explains why a token is refused for which nothing is
selected. -/
theorem explains_of_select_eq_none (hg : p.grammar.Closed)
    (ht : p.table = ActionTable.ofGrammar p.grammar) (ha : a ∈ p.grammar.vars) {token : Token}
    (h : p.select a token.unit = none) : p.Explains a token (p.acceptable a) := by
  obtain ⟨set, hget, hlookup⟩ := exists_first hg ht ha
  have selected : ∀ unit ∈ p.acceptable a, ∃ i, p.select a unit = some i := by
    intro unit hunit
    obtain ⟨-, t, hmem, hterminal, rfl⟩ := (mem_acceptable_iff hg ht ha).mp hunit
    exact exists_select_of_mem_first hg ht ha hmem hterminal
  refine ⟨fun hmem => ?_, nodup_acceptable p a, sorted_acceptable p a, fun unit => ?_, selected⟩
  · obtain ⟨i, hi⟩ := selected _ hmem
    rw [h] at hi
    cases hi
  · rw [mem_acceptable_iff hg ht ha, hlookup]
    refine and_congr_right fun _ => ⟨fun h => ⟨set, hget, h⟩, fun ⟨other, hother, h⟩ => ?_⟩
    rw [hget] at hother
    exact Option.some.inj hother ▸ h

/-- A variable is refused with its list where no alternative is chosen. -/
theorem expand_eq_error {e : SyntaxError} (h : p.expand a s = .error e) :
    p.chosenRule a s = none ∧ e = .noProduction a (p.acceptable a) (p.current s) := by
  rw [expand] at h
  cases hc : p.chosenRule a s with
  | none =>
    rw [hc] at h
    exact ⟨rfl, (Except.error.inj h).symm⟩
  | some rule =>
    rw [hc] at h
    dsimp only at h
    split at h <;> cases h

/-- A descent from a refused variable leaves the state as it was. -/
theorem build_of_refused {e : SyntaxError} (h : p.expand a s = .error e) (limit : Nat) :
    p.build limit a s = some ⟨s, .error e⟩ := by
  rw [build, h]

/-- So does a descent that comes to it. -/
theorem run_of_refused {e : SyntaxError} (ha : a ∈ p.grammar.vars) (h : p.expand a s = .error e)
    (limit node : Nat) (unread : List Symbol) (below : List Frame) :
    p.run (limit + 1) s (⟨node, a :: unread⟩ :: below) = some ⟨s, .error e⟩ := by
  rw [run, step, if_pos ha, h]

/-- The error of a rejected variable is that of its expansion. -/
theorem Rejects.expand {x : Symbol} {acceptable : List LexicalUnit} {token : Token}
    (h : p.Rejects s x (.noProduction a acceptable token)) :
    x = a ∧ a ∈ p.grammar.vars ∧ p.expand a s = .error (.noProduction a acceptable token) := by
  cases h with
  | head mem none =>
    refine ⟨rfl, mem, ?_⟩
    rw [Parser.expand, none]

/-- Where the expansion of a variable is refused, in whatever state a parser is,
the error names the variable and the current token, and its list explains it; the
state is left as it was, whether a descent begins with the variable or comes to
it. A parse that ends with such an error has come to a configuration where the
variable is to be read next, and the state that it leaves is that in which the
expansion is refused. -/
theorem make_expand_refused {settings : Settings} {g : Grammar} {units : Option UnitMap}
    {tokens : List Token} {p : Parser} (hg : g.Closed)
    (hp : make settings g units tokens = .ok p) :
    (∀ a ∈ p.grammar.vars, ∀ s e, p.expand a s = .error e →
      (∃ acceptable, e = .noProduction a acceptable (p.current s) ∧
        p.Explains a (p.current s) acceptable) ∧
      (∀ limit, p.build limit a s = some ⟨s, .error e⟩) ∧
      ∀ limit node unread below,
        p.run (limit + 1) s (⟨node, a :: unread⟩ :: below) = some ⟨s, .error e⟩) ∧
    ∀ limit o a acceptable token, p.parseWithin limit = some o →
      o.result = .error (.noProduction a acceptable token) →
      a ∈ p.grammar.vars ∧ (∃ unread, p.Pending o.state (a :: unread)) ∧
        p.expand a o.state = .error (.noProduction a acceptable token) := by
  have hmade := made_of_make hp
  have hclosed := (hg.reduce hmade.reduced).1
  refine ⟨fun a ha s e he => ⟨?_, build_of_refused he, run_of_refused ha he⟩,
    fun limit o a acceptable token ho herror => ?_⟩
  · obtain ⟨hnone, herror⟩ := expand_eq_error he
    exact ⟨_, herror, explains_of_select_eq_none hclosed hmade.table_eq ha
      (Option.map_eq_none_iff.mp hnone)⟩
  · obtain ⟨last, result, hend, rfl⟩ := ends_of_parseWithin ho
    obtain ⟨unread, hpending, hresult⟩ := hend.pending
    cases result with
    | ok root =>
      -- a finished descent can lack nothing but the end of the stream
      rw [conclude] at herror
      dsimp only at herror
      split at herror <;> cases herror
    | error cause =>
      obtain ⟨x, rest, rfl, hrejects⟩ := hresult
      have hcause : cause = .noProduction a acceptable token := Except.error.inj herror
      rw [hcause] at hrejects
      obtain ⟨rfl, ha, hexpand⟩ := hrejects.expand
      exact ⟨ha, ⟨rest, hpending⟩, hexpand⟩

end Parser

/-- Programs of commands that are introduced one by one. -/
def Grammar.commands : Grammar :=
  ⟨componentsOfNames ["P", "C"] ["do", "stop", "start", "halt", "wait", "pause"]
    [("P", [["do", "C", "P"], ["epsilon"]]),
      ("C", [["stop"], ["start"], ["halt"], ["wait"], ["pause"]])] "P" none,
    by decide +kernel⟩

theorem Grammar.commands_closed : commands.Closed := closed_of_componentsOfNames rfl

/-- Units of commands: two commands have the same one, and one has none. -/
def commandUnits : UnitMap :=
  [("do", .named "DO"), ("stop", .named "END"), ("start", .plain (.int 2)),
    ("halt", .plain (.int 2)), ("pause", .member "Unit" "ARM")]

namespace Parser

/-- Behind `do` a command is due. The token that comes instead is refused in the
state after the first rule and the first token, and the list has each unit of a
command once. -/
theorem make_expand_refused_commands : Grammar.commands.Closed ∧
    ∃ p o, make {} Grammar.commands (some commandUnits)
        [⟨.named "DO", .text "do", .int 1, .int 1⟩, ⟨.named "GO", .text "go", .int 1, .int 4⟩,
          ⟨.none, .null, .int 1, .int 6⟩] = .ok p ∧
      p.parseWithin 20 = some o ∧
      o.result = .error (.noProduction (.nonterminal "C")
        [.plain (.int 2), .member "Unit" "ARM", .named "END"]
        ⟨.named "GO", .text "go", .int 1, .int 4⟩) ∧
      o.state.trace = [1] ∧ o.state.cursor = 1 ∧
      .nonterminal "C" ∈ p.grammar.vars ∧
      p.Explains (.nonterminal "C") (p.current o.state)
        [.plain (.int 2), .member "Unit" "ARM", .named "END"] ∧
      p.build 20 (.nonterminal "C") o.state = some ⟨o.state, .error (.noProduction
        (.nonterminal "C") [.plain (.int 2), .member "Unit" "ARM", .named "END"]
        ⟨.named "GO", .text "go", .int 1, .int 4⟩)⟩ := by
  have hrun : ((make {} Grammar.commands (some commandUnits)
      [⟨.named "DO", .text "do", .int 1, .int 1⟩, ⟨.named "GO", .text "go", .int 1, .int 4⟩,
        ⟨.none, .null, .int 1, .int 6⟩]).toOption.bind fun p =>
      (p.parseWithin 20).map fun o => (o.result, o.state.trace, o.state.cursor)) =
      some (.error (.noProduction (.nonterminal "C")
        [.plain (.int 2), .member "Unit" "ARM", .named "END"]
        ⟨.named "GO", .text "go", .int 1, .int 4⟩), [1], 1) := by
    decide +kernel
  obtain ⟨p, hmake, hparse⟩ := exists_of_make_bind hrun
  obtain ⟨o, ho, hvalues⟩ := Option.map_eq_some_iff.mp hparse
  obtain ⟨herror, hstate⟩ := Prod.mk.inj hvalues
  obtain ⟨htrace, hcursor⟩ := Prod.mk.inj hstate
  obtain ⟨explained, ended⟩ := make_expand_refused Grammar.commands_closed hmake
  obtain ⟨hvar, -, hexpand⟩ := ended _ o _ _ _ ho herror
  obtain ⟨⟨acceptable, hsame, hexplains⟩, hbuild, -⟩ := explained _ hvar _ _ hexpand
  obtain ⟨-, rfl, -⟩ := SyntaxError.noProduction.inj hsame
  exact ⟨Grammar.commands_closed, p, o, hmake, ho, herror, htrace, hcursor, hvar, hexplains,
    hbuild 20⟩

end Parser

end PredictiveParsing
