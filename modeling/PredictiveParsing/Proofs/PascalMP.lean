import Mathlib.Data.Option.Basic
import PredictiveParsing.PascalMP
import PredictiveParsing.Proofs.Descent.Recognition
import PredictiveParsing.Proofs.Lookahead.Bounds
import PredictiveParsing.Proofs.Reduction.NormalForm

/-!
# The parser of PascalMP accepts its programs

The reduced grammar of PascalMP is given here rule by rule. One evaluation
shows that the reduction ends with it; all else that is needed is seen from the
rules: the alternatives meet the conditions of exact lookahead sets, and the
table of what symbols can start with and what can follow them keeps the
predictors of alternatives apart. As the reduction keeps the sentences, the
parser accepts the programs of the grammar before reduction.
-/

namespace PredictiveParsing.PascalMP

deriving instance DecidableEq for Components

/-- The names of the variables after reduction, in display order. -/
def reducedNames : List String :=
  ["<Program>", "<Code>", "<InstList>", "<InstList>'", "<Instruction>", "<Assign>",
    "<ExprArith>", "<ExprArith>'", "<ExprArith>''", "<T>", "<T>'", "<T>''", "<U>", "<If>",
    "<If>'", "<Cond>", "<Cond>'", "<Cond>''", "<V>", "<V>'", "<V>''", "<W>", "<SimpleCond>",
    "<Comp>", "<While>", "<Print>", "<Read>"]

/-- The alternatives after reduction. The primed variables stand for the
first operand of a chain, the doubly primed ones for the rest of it, and those
of instruction lists and conditionals for what follows their prefix. -/
def reducedRules : List (String × List (List String)) := [
  ("<Program>", [["begin", "<Code>", "end"]]),
  ("<Code>", [[""], ["<InstList>"]]),
  ("<InstList>", [["<Instruction>", "<InstList>'"]]),
  ("<Instruction>", [["<Assign>"], ["<If>"], ["<While>"], ["<Print>"], ["<Read>"],
    ["begin", "<InstList>", "end"]]),
  ("<Assign>", [["[VarName]", ":=", "<ExprArith>"]]),
  ("<ExprArith>", [["<ExprArith>'", "<ExprArith>''"]]),
  ("<T>", [["<T>'", "<T>''"]]),
  ("<U>", [["[VarName]"], ["[Number]"], ["(", "<ExprArith>", ")"], ["-", "<U>"]]),
  ("<If>", [["if", "<Cond>", "then", "<Instruction>", "else", "<If>'"]]),
  ("<Cond>", [["<Cond>'", "<Cond>''"]]),
  ("<V>", [["<V>'", "<V>''"]]),
  ("<W>", [["\x7b", "<Cond>", "\x7d"], ["<SimpleCond>"]]),
  ("<SimpleCond>", [["<ExprArith>", "<Comp>", "<ExprArith>"]]),
  ("<Comp>", [["="], ["<"]]),
  ("<While>", [["while", "<Cond>", "do", "<Instruction>"]]),
  ("<Print>", [["print", "(", "[VarName]", ")"]]),
  ("<Read>", [["read", "(", "[VarName]", ")"]]),
  ("<ExprArith>'", [["<T>"]]),
  ("<ExprArith>''", [["+", "<T>", "<ExprArith>''"], ["-", "<T>", "<ExprArith>''"], [""]]),
  ("<T>'", [["<U>"]]),
  ("<T>''", [["*", "<U>", "<T>''"], ["/", "<U>", "<T>''"], [""]]),
  ("<Cond>'", [["<V>"]]),
  ("<Cond>''", [["or", "<V>", "<Cond>''"], [""]]),
  ("<V>'", [["<W>"]]),
  ("<V>''", [["and", "<W>", "<V>''"], [""]]),
  ("<InstList>'", [[""], ["...", "<InstList>"]]),
  ("<If>'", [[""], ["<Instruction>"]])]

/-- The components of the reduced grammar. -/
def reducedComponents : Components :=
  Grammar.componentsOfNames reducedNames (terminalUnits.map PascalUnit.spelling) reducedRules
    "<Program>" (some reducedNames)

/-- The reduced grammar. -/
def reduced : Grammar := ⟨reducedComponents, by decide +kernel⟩

/-- The grammar of PascalMP is closed. -/
theorem grammar_closed : grammar.Closed := Grammar.closed_of_componentsOfNames rfl

/-- So is the reduced one. -/
theorem reduced_closed : reduced.Closed := Grammar.closed_of_componentsOfNames rfl

/-- The reduction ends with the reduced grammar. -/
theorem reduce_grammar : grammar.reduce {} = .ok reduced := by
  have hcomponents : (grammar.reduce {}).toOption.map (fun r => r.toComponents) =
      some reducedComponents := by decide +kernel
  obtain ⟨r, hr, hsame⟩ := exists_ok_of_toOption hcomponents
  have hreduced : r = reduced := Grammar.eq_of_toComponents hsame
  rw [hr, hreduced]

/-- The lookahead sets of the reduced grammar lose nothing. -/
theorem reduced_exactLookahead : reduced.ExactLookahead :=
  reduced_closed.exactLookahead (by decide +kernel)

/-- The terminals with which an expression can start. -/
def expressionStarts : List String := ["[VarName]", "[Number]", "(", "-"]

/-- The terminals with which an instruction can start. -/
def instructionStarts : List String := ["[VarName]", "if", "while", "print", "read", "begin"]

/-- The terminals that can come after an instruction. -/
def instructionEnds : List String := ["end", "...", "else"]

/-- The terminals that can come after a condition. -/
def conditionEnds : List String := ["\x7d", "then", "do"]

/-- The terminals that can come after an expression. -/
def expressionEnds : List String :=
  [")", "=", "<"] ++ instructionEnds ++ "or" :: "and" :: conditionEnds

/-- What each variable of the reduced grammar can start with, the empty name
standing for the empty string, and what can come after it. -/
def bounds : List (String × List String × List String) := [
  ("<Program>", ["begin"], []),
  ("<Code>", "" :: instructionStarts, ["end"]),
  ("<InstList>", instructionStarts, ["end"]),
  ("<InstList>'", ["", "..."], ["end"]),
  ("<Instruction>", instructionStarts, instructionEnds),
  ("<Assign>", ["[VarName]"], instructionEnds),
  ("<ExprArith>", expressionStarts, expressionEnds),
  ("<ExprArith>'", expressionStarts, "+" :: "-" :: expressionEnds),
  ("<ExprArith>''", ["", "+", "-"], expressionEnds),
  ("<T>", expressionStarts, "+" :: "-" :: expressionEnds),
  ("<T>'", expressionStarts, "*" :: "/" :: "+" :: "-" :: expressionEnds),
  ("<T>''", ["", "*", "/"], "+" :: "-" :: expressionEnds),
  ("<U>", expressionStarts, "*" :: "/" :: "+" :: "-" :: expressionEnds),
  ("<If>", ["if"], instructionEnds),
  ("<If>'", "" :: instructionStarts, instructionEnds),
  ("<Cond>", "\x7b" :: expressionStarts, conditionEnds),
  ("<Cond>'", "\x7b" :: expressionStarts, "or" :: conditionEnds),
  ("<Cond>''", ["", "or"], conditionEnds),
  ("<V>", "\x7b" :: expressionStarts, "or" :: conditionEnds),
  ("<V>'", "\x7b" :: expressionStarts, "and" :: "or" :: conditionEnds),
  ("<V>''", ["", "and"], "or" :: conditionEnds),
  ("<W>", "\x7b" :: expressionStarts, "and" :: "or" :: conditionEnds),
  ("<SimpleCond>", expressionStarts, "and" :: "or" :: conditionEnds),
  ("<Comp>", ["=", "<"], expressionStarts),
  ("<While>", ["while"], instructionEnds),
  ("<Print>", ["print"], instructionEnds),
  ("<Read>", ["read"], instructionEnds)]

/-- The bounds as sets of symbols. -/
def setBounds : SetBounds :=
  .ofTable <| bounds.map fun entry => (.nonterminal entry.1,
    entry.2.1.map (Grammar.symbolOfName []), entry.2.2.map (Grammar.symbolOfName []))

/-- The lookahead sets of the reduced grammar lie within the bounds. -/
theorem reduced_bounded : reduced.BoundedBy setBounds := Grammar.boundedBy_ofTable (by decide +kernel)

/-- The action table of the reduced grammar has no conflicts. -/
theorem reduced_isLL : (ActionTable.ofGrammar reduced).isLL 1 = true :=
  reduced_bounded.isLL reduced_closed (by decide +kernel)

/-- A unit is found by its name. -/
theorem PascalUnit.ofName?_name (u : PascalUnit) : ofName? u.name = some u := by
  cases u <;> decide +kernel

/-- Members of the enumeration differ as types of tokens. -/
theorem PascalUnit.unit_injective {u v : PascalUnit} (h : u.unit = v.unit) : u = v := by
  have hname : u.name = v.name := (LexicalUnit.member.inj h).2
  have hu := u.ofName?_name
  rw [hname, v.ofName?_name] at hu
  exact (Option.some.inj hu).symm

/-- The map gives every unit but the end marker to its spelling. -/
theorem unit?_spelling : ∀ u ∈ terminalUnits, unitMap.unit? u.spelling = some u.unit := by
  decide +kernel

/-- The declared terminals are spellings of units. -/
theorem exists_unit_of_mem_terminals {t : Symbol} (ht : t ∈ grammar.terminals) :
    ∃ u, u ≠ PascalUnit.endOfStream ∧ t = .terminal u.spelling ∧
      unitMap.unit? t.name = some u.unit := by
  have hmem : t ∈ ((terminalUnits.map PascalUnit.spelling).filter fun name =>
      decide (name ∉ epsilonNames)).map .terminal := SymbolSet.mem_ofList.mp ht
  obtain ⟨name, hname, rfl⟩ := List.mem_map.mp hmem
  obtain ⟨u, hu, rfl⟩ := List.mem_map.mp (List.mem_filter.mp hname).1
  exact ⟨u, of_decide_eq_true (List.mem_filter.mp hu).2, rfl, unit?_spelling u hu⟩

/-- The terminals in the bodies of the reduced grammar are declared. -/
theorem mem_terminals_of_occurs {t : Symbol} (ht : t.isTerminal = true) (ho : reduced.Occurs t) :
    t ∈ grammar.terminals := by
  obtain ⟨a, body, hbody, hin⟩ := ho
  exact grammar_closed.mem_terminals_of_reduce reduce_grammar hbody hin ht

section

variable {p : Parser} {w : List Token} {marker : Token} {t : Symbol}

/-- The parser gives a declared terminal the unit that the map gives to its
name. -/
theorem unit?_eq_unitOf (hp : p.units = some unitMap) (ht : t ∈ grammar.terminals) :
    unitMap.unit? t.name = some (p.unitOf t) := by
  obtain ⟨u, -, rfl, hunit⟩ := exists_unit_of_mem_terminals ht
  have hne : Symbol.terminal u.spelling ≠ .epsilon := fun e => by cases e
  rw [Parser.unitOf, if_neg hne, hp]
  dsimp only
  rw [hunit, Option.getD_some]

/-- The unit of a declared terminal is that of its spelling. -/
theorem exists_unitOf_eq (hp : p.units = some unitMap) (ht : t ∈ grammar.terminals) :
    ∃ u, u ≠ PascalUnit.endOfStream ∧ t = .terminal u.spelling ∧ p.unitOf t = u.unit := by
  obtain ⟨u, hu, hspelling, hunit⟩ := exists_unit_of_mem_terminals ht
  rw [unit?_eq_unitOf hp ht] at hunit
  exact ⟨u, hu, hspelling, Option.some.inj hunit⟩

/-- The next unit determines what the parser does. -/
theorem deterministic_of_made (hp : Parser.Made {} grammar (some unitMap) (w ++ [marker]) p)
    (hm : marker.unit = PascalUnit.endOfStream.unit) : p.Predictive := by
  have hgrammar : p.grammar = reduced := by
    have hr := hp.reduced
    rw [reduce_grammar] at hr
    exact (Except.ok.inj hr).symm
  refine Parser.Deterministic.predictive
    ⟨hgrammar ▸ reduced_closed, hgrammar ▸ reduced_exactLookahead, hp.table_eq, ?_, ?_, ?_⟩
  · rw [Parser.isLL, hp.table_eq, hgrammar]
    exact reduced_isLL
  · intro t u ht hu hto huo hunits
    rw [hgrammar] at hto huo
    obtain ⟨v, -, hv, htv⟩ := exists_unitOf_eq hp.units_eq (mem_terminals_of_occurs ht hto)
    obtain ⟨v', -, hv', huv⟩ := exists_unitOf_eq hp.units_eq (mem_terminals_of_occurs hu huo)
    rw [htv, huv] at hunits
    rw [hv, hv', PascalUnit.unit_injective hunits]
  · intro t ht hto hend
    rw [hgrammar] at hto
    obtain ⟨v, hv, -, htv⟩ := exists_unitOf_eq hp.units_eq (mem_terminals_of_occurs ht hto)
    rw [← hp.marker_unit, hm, htv] at hend
    exact hv (PascalUnit.unit_injective hend)

end

/-- The programs as their units: the images of the sentences of the grammar
before reduction. -/
def IsProgram (units : List PascalUnit) : Prop :=
  ∃ y, grammar.Sentence y ∧
    y.map (fun t => unitMap.unit? t.name) = units.map fun u => some u.unit

/-- The sentences of the reduced grammar with given units make a program. -/
theorem isProgram_iff {p : Parser} (hp : p.units = some unitMap) {units : List PascalUnit} :
    IsProgram units ↔ ∃ y, Generates reduced.rulesOf [reduced.start] y ∧
      y.map p.unitOf = units.map PascalUnit.unit := by
  refine exists_congr fun y => ?_
  rw [← reduced_closed.sentence_iff_generates (grammar_closed.trim_of_reduce reduce_grammar),
    grammar_closed.sentence_reduce_iff reduce_grammar]
  refine and_congr_right fun hy => ?_
  have hleft : y.map (fun t => unitMap.unit? t.name) = (y.map p.unitOf).map some := by
    rw [List.map_map]
    exact List.map_congr_left fun t ht => unit?_eq_unitOf hp (hy.2 t ht)
  have hright : units.map (fun u => some u.unit) = (units.map PascalUnit.unit).map some := by
    rw [List.map_map]
    rfl
  rw [hleft, hright]
  exact (List.map_injective_iff.mpr (Option.some_injective LexicalUnit)).eq_iff

/-- The parser of PascalMP halts on tokens with any units that are followed by
the end marker. It succeeds if the units are a program, and fails otherwise. -/
theorem parse_accepts_programs (units : List PascalUnit) (hunits : .endOfStream ∉ units)
    (w : List Token) (hw : w.map Token.unit = units.map PascalUnit.unit) (marker : Token)
    (hm : marker.unit = PascalUnit.endOfStream.unit) :
    ∃ p o, Parser.make {} grammar (some unitMap) (w ++ [marker]) = .ok p ∧ p.parse = some o ∧
      (o.result = .ok () ↔ IsProgram units) ∧
      ((∃ e, o.result = .error e) ↔ ¬IsProgram units) := by
  obtain ⟨p, hmake, hgrammar⟩ := Parser.exists_make reduce_grammar (some unitMap) w marker
  have hp := Parser.made_of_make hmake
  have hmarker : ∀ token ∈ w, token.unit ≠ marker.unit := by
    intro token htoken hend
    have hmem : token.unit ∈ units.map PascalUnit.unit := hw ▸ List.mem_map_of_mem htoken
    obtain ⟨u, hu, he⟩ := List.mem_map.mp hmem
    rw [← he, hm] at hend
    exact hunits (PascalUnit.unit_injective hend ▸ hu)
  obtain ⟨o, ho, hok⟩ := hp.parse_ok_iff (deterministic_of_made hp hm) rfl hmarker
  rw [hgrammar, hw, ← isProgram_iff hp.units_eq] at hok
  refine ⟨p, o, hmake, ho, hok, ?_⟩
  rw [← hok]
  cases o.result with
  | ok value => exact iff_of_false (fun ⟨e, he⟩ => by cases he) fun hne => hne rfl
  | error e => exact iff_of_true ⟨e, rfl⟩ fun h => by cases h

/-- A token of a unit, with its spelling as the value. -/
def token (u : PascalUnit) : Token := { unit := u.unit, value := .text u.spelling }

/-- The units of a program that prints a variable. -/
def printing : List PascalUnit :=
  [.beginWord, .printWord, .leftParenthesis, .variableName, .rightParenthesis, .endWord]

/-- It is derived by way of an instruction list with one instruction. -/
theorem isProgram_printing : IsProgram printing := by
  let command : List Symbol :=
    [.terminal "print", .terminal "(", .terminal "[VarName]", .terminal ")"]
  have hword : IsWord command := by
    simp only [command, isWord_terminal_cons, isWord_nil]
  have hprint : Yields grammar.rulesOf [.nonterminal "<Print>"] command :=
    yields_nonterminal.mpr ⟨command, by decide +kernel, hword.yields⟩
  have hinstruction : Yields grammar.rulesOf [.nonterminal "<Instruction>"] command :=
    yields_nonterminal.mpr ⟨_, by decide +kernel, hprint⟩
  have hlist : Yields grammar.rulesOf [.nonterminal "<InstList>"] command :=
    yields_nonterminal.mpr ⟨_, by decide +kernel, hinstruction⟩
  have hcode : Yields grammar.rulesOf [.nonterminal "<Code>"] command :=
    yields_nonterminal.mpr ⟨_, by decide +kernel, hlist⟩
  have hprogram : Yields grammar.rulesOf [grammar.start]
      (.terminal "begin" :: (command ++ [.terminal "end"])) := by
    refine yields_nonterminal.mpr
      ⟨[.terminal "begin", .nonterminal "<Code>", .terminal "end"], by decide +kernel, ?_⟩
    exact .terminal (Yields.append hcode (.terminal .nil))
  refine ⟨.terminal "begin" :: (command ++ [.terminal "end"]), ?_, by decide +kernel⟩
  exact grammar_closed.sentence_iff.mpr ⟨hprogram, by unfold Grammar.Declares; decide +kernel⟩

/-- No tokens make no program, since a program begins with a word. -/
theorem not_isProgram_nil : ¬IsProgram [] := by
  intro ⟨y, hsentence, hunits⟩
  have hrules : grammar.rulesOf grammar.start =
      [[.terminal "begin", .nonterminal "<Code>", .terminal "end"]] := by decide +kernel
  rw [List.map_nil, List.map_eq_nil_iff] at hunits
  have hy := (grammar_closed.sentence_iff.mp hsentence).1
  rw [hunits] at hy
  obtain ⟨body, hbody, hyields⟩ := yields_nonterminal.mp hy
  change body ∈ grammar.rulesOf grammar.start at hbody
  rw [hrules, List.mem_singleton] at hbody
  rw [hbody] at hyields
  cases hyields

/-- The parser accepts the one and refuses the other. -/
theorem parse_accepts_printing :
    (∃ p o, Parser.make {} grammar (some unitMap)
        (printing.map token ++ [token .endOfStream]) = .ok p ∧
      p.parse = some o ∧ o.result = .ok ()) ∧
    ∃ p o, Parser.make {} grammar (some unitMap) [token .endOfStream] = .ok p ∧
      p.parse = some o ∧ ∃ e, o.result = .error e := by
  obtain ⟨p, o, hmake, ho, accepts, -⟩ := parse_accepts_programs printing (by decide)
    (printing.map token) rfl (token .endOfStream) rfl
  obtain ⟨q, r, hempty, hr, -, refuses⟩ := parse_accepts_programs [] List.not_mem_nil
    [] rfl (token .endOfStream) rfl
  exact ⟨⟨p, o, hmake, ho, accepts.mpr isProgram_printing⟩,
    ⟨q, r, hempty, hr, refuses.mpr not_isProgram_nil⟩⟩

end PredictiveParsing.PascalMP
