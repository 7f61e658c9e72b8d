import PredictiveParsing.Proofs.Grammar.Names
import PredictiveParsing.Proofs.Renaming.Descent

/-!
# The order of a grammar is never semantic

The display order and the order of the rule table decide how things are shown,
in which order a round visits the variables, and which of several generated
variables gets which name. They do not decide what is computed: grammars that
differ in them only have the same sets and the same action table, and the
parsers made of them do the same up to the names of the generated variables.
-/

namespace PredictiveParsing

open Renaming

/-- Tables with the same entries in any order have the same content. -/
theorem SymbolTable.get?_eq_of_perm {α : Type} {t u : SymbolTable α}
    (h : t.entries.Perm u.entries) (a : Symbol) : t.get? a = u.get? a := by
  refine Option.ext fun v => ?_
  rw [← mem_entries_iff, ← mem_entries_iff]
  exact h.mem_iff

namespace Parser

variable {settings : Settings} {g h r s : Grammar} {units : Option UnitMap} {tokens : List Token}

/-- No parser is made where the grammar cannot be reduced. -/
theorem exists_make_eq_error {fault : GrammarFault} (hr : g.reduce settings = .error fault) :
    ∃ e, make settings g units tokens = .error e := by
  rw [make]
  cases TokenStream.ofList? tokens with
  | none => exact ⟨.emptyStream, rfl⟩
  | some stream =>
    rw [hr]
    exact ⟨.grammar fault, rfl⟩

/-- Grammars whose reduced grammars correspond give no parser, or parsers that
correspond. -/
theorem make_carried {σ : Renaming} (hr : g.reduce settings = .ok r)
    (hs : h.reduce settings = .ok s) (hclosed : r.Closed) (hclosed' : s.Closed)
    (hσ : σ.Carries r.toComponents s.toComponents) :
    (∃ e e', make settings g units tokens = .error e ∧ make settings h units tokens = .error e') ∨
      ∃ p q, make settings g units tokens = .ok p ∧ make settings h units tokens = .ok q ∧
        Carried σ p q := by
  rw [make, make]
  cases TokenStream.ofList? tokens with
  | none => exact .inl ⟨.emptyStream, .emptyStream, rfl, rfl⟩
  | some stream =>
    rw [hr, hs]
    exact .inr ⟨_, _, rfl, rfl, ⟨rfl, rfl, rfl, hclosed, hclosed', rfl, rfl, hσ⟩⟩

end Parser

namespace Grammar

variable {g h : Grammar}

/-- The order of a grammar, present, absent or another one, and the order of
its rule table do not matter. The FIRST and FOLLOW sets, the cells of the action
table and its conflicts are the same. For all settings there is a renaming that
leaves every variable but the generated ones such that for all tokens and units
either no parser is made, or two parsers that halt together, for the same number
of steps: they accept or reject together at the same token, and have the same
tree with the labels renamed. -/
theorem Closed.parse_ignores_order (hg : g.Closed) (hs : g.SameUpToOrder h.toComponents) :
    Lookahead.ofGrammar h = Lookahead.ofGrammar g ∧
    (∀ a t, (ActionTable.ofGrammar h).cell a t = (ActionTable.ofGrammar g).cell a t) ∧
    (∀ n, (ActionTable.ofGrammar h).isLL n = (ActionTable.ofGrammar g).isLL n) ∧
    ∀ settings : Settings, ∃ σ : Renaming,
      (∀ useful, stage settings.removeUseless Grammar.removeUseless g = .ok useful →
        ∀ a ∈ useful.vars, σ a = a) ∧
      ∀ (units : Option UnitMap) (tokens : List Token),
        (∃ e e', Parser.make settings g units tokens = .error e ∧
          Parser.make settings h units tokens = .error e') ∨
        ∃ p q, Parser.make settings g units tokens = .ok p ∧
          Parser.make settings h units tokens = .ok q ∧
          σ.Carries p.grammar.toComponents q.grammar.toComponents ∧
          Option.Rel (Outcome.Alike σ) p.parse q.parse ∧
          ∀ limit, Option.Rel (Outcome.Alike σ) (p.parseWithin limit) (q.parseWithin limit) := by
  have hh : h.Closed := (hs.closed hg.components).grammar
  refine ⟨?_, (ActionTable.cell_eq_of_sameUpToOrder hg hs).1,
    (ActionTable.cell_eq_of_sameUpToOrder hg hs).2, fun settings => ?_⟩
  · rw [Lookahead.ofGrammar, Lookahead.ofGrammar, hg.firstTable_eq hs, hg.followTable_eq hs]
  · cases hr : g.reduce settings with
    | error fault =>
      refine ⟨Renaming.id, fun _ _ a _ => id_apply a, fun units tokens => .inl ?_⟩
      obtain ⟨e, he⟩ := Parser.exists_make_eq_error hr
      cases hr' : h.reduce settings with
      | error fault' =>
        obtain ⟨e', he'⟩ := Parser.exists_make_eq_error hr'
        exact ⟨e, e', he, he'⟩
      | ok s =>
        obtain ⟨-, r, -, -, hback, -⟩ := hh.reduce_carries hs.symm hr'
        rw [hr] at hback
        cases hback
    | ok r =>
      obtain ⟨useful, s, σ, huseful, hr', hfixed, hσ⟩ := hg.reduce_carries hs hr
      refine ⟨σ, fun useful' hok a ha => ?_, fun units tokens => ?_⟩
      · rw [huseful] at hok
        exact hfixed a (Except.ok.inj hok ▸ ha)
      · refine (Parser.make_carried hr hr' (hg.reduce hr).1 (hh.reduce hr').1 hσ).imp_right ?_
        rintro ⟨p, q, hp, hq, hc⟩
        exact ⟨p, q, hp, hq, hc.grammar, hc.parse, hc.parseWithin⟩

/-- Two lists, one behind the other. The removal of left recursion generates
variables for both, and the first to be visited gets the shorter name. -/
def twoLists : Grammar :=
  ⟨componentsOfNames ["S", "A", "A'"] ["x", "y", "z", "w"]
    [("S", [["A", "A'"]]), ("A", [["A", "x"], ["y"]]), ("A'", [["A'", "z"], ["w"]])] "S" none,
    by decide +kernel⟩

theorem twoLists_closed : twoLists.Closed := closed_of_componentsOfNames rfl

/-- The same lists in another order. -/
def twoListsTurned : Grammar :=
  ⟨componentsOfNames ["S", "A", "A'"] ["x", "y", "z", "w"]
    [("A'", [["A'", "z"], ["w"]]), ("S", [["A", "A'"]]), ("A", [["A", "x"], ["y"]])] "S"
    (some ["A'", "A", "S"]), by decide +kernel⟩

theorem twoLists_sameUpToOrder : twoLists.SameUpToOrder twoListsTurned.toComponents where
  vars := rfl
  terminals := rfl
  start := rfl
  rules := SymbolTable.get?_eq_of_perm (by decide +kernel)

/-- Both orders accept `y x w`. The trees are not the same, but they are up to
a renaming that leaves the variables of the grammar. -/
theorem parse_ignores_order_twoLists : twoLists.Closed ∧
    twoLists.SameUpToOrder twoListsTurned.toComponents ∧
    ∃ p q o u, Parser.make {} twoLists none (Token.ofNames ["y", "x", "w", "end"]) = .ok p ∧
      Parser.make {} twoListsTurned none (Token.ofNames ["y", "x", "w", "end"]) = .ok q ∧
      p.parse = some o ∧ q.parse = some u ∧ o.result.toOption = some () ∧
      u.result.toOption = some () ∧ o.state.cursor = 3 ∧ u.state.cursor = 3 ∧
      o.state.tree ≠ u.state.tree ∧
      ∃ σ : Renaming, (∀ a ∈ twoLists.vars, σ a = a) ∧ u.state.tree = o.state.tree.rename σ := by
  have huseful : (twoLists.removeUseless.toOption.map fun useful => useful.vars) =
      some twoLists.vars := by decide +kernel
  have hrun : (((Parser.make {} twoLists none
      (Token.ofNames ["y", "x", "w", "end"])).toOption.bind Parser.parse).map fun o =>
        (o.result.toOption, o.state.cursor, o.state.tree.nodes[2]?.map ParseNode.label)) =
      some (some (), 3, some (.nonterminal "A''")) := by decide +kernel
  have hturned : (((Parser.make {} twoListsTurned none
      (Token.ofNames ["y", "x", "w", "end"])).toOption.bind Parser.parse).map fun o =>
        o.state.tree.nodes[2]?.map ParseNode.label) =
      some (some (.nonterminal "A''''")) := by decide +kernel
  obtain ⟨o, ho, hdone⟩ := Option.map_eq_some_iff.mp hrun
  obtain ⟨u, hu, hlabel'⟩ := Option.map_eq_some_iff.mp hturned
  obtain ⟨hok, hrest⟩ := Prod.mk.inj hdone
  obtain ⟨hcursor, hlabel⟩ := Prod.mk.inj hrest
  obtain ⟨p, hp, hpo⟩ := Parser.exists_of_make_bind ho
  obtain ⟨q, hq, hqu⟩ := Parser.exists_of_make_bind hu
  obtain ⟨useful, hremoved, hvars⟩ := exists_ok_of_toOption huseful
  obtain ⟨-, -, -, hall⟩ := twoLists_closed.parse_ignores_order twoLists_sameUpToOrder
  obtain ⟨σ, hfixed, hparsers⟩ := hall {}
  rcases hparsers none (Token.ofNames ["y", "x", "w", "end"]) with
    ⟨e, -, he, -⟩ | ⟨p', q', hp', hq', -, halike, -⟩
  · rw [hp] at he
    cases he
  · rw [hp] at hp'
    rw [hq] at hq'
    rw [← Except.ok.inj hp', ← Except.ok.inj hq', hpo, hqu] at halike
    cases halike with
    | some h =>
      refine ⟨twoLists_closed, twoLists_sameUpToOrder, p, q, o, u, hp, hq, hpo, hqu, hok, ?_,
        hcursor, h.state.cursor.trans hcursor, fun he => ?_, σ, ?_, h.state.tree⟩
      · rw [h.result, Outcome.eq_ok_of_toOption hok]
        rfl
      · rw [he, hlabel'] at hlabel
        exact absurd hlabel (by decide)
      · rw [← hvars]
        exact hfixed useful hremoved

end Grammar

end PredictiveParsing
