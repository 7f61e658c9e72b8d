import PredictiveParsing.Proofs.Lookahead.Completeness
import PredictiveParsing.Proofs.Reduction.NormalForm

/-!
# Parse trees of a grammar and ambiguity

A row of parse trees is valid for a grammar if every inner node has an
alternative of its variable and the trees below it stand for the symbols of
the alternative. The strings at the leaves of such trees are what the grammar
generates. A grammar is unambiguous if a string has at most one tree from the
start symbol.

Two trees of a string are compared from the left, node by node. They agree
where the rest of the string leaves one alternative of a variable. A complete
table without conflicts does so as long as a terminal is left. At the end of
the string no cell is asked, so that a variable must not derive the empty
string by two alternatives. Otherwise an ambiguity may be missed. The FOLLOW
sets leave out the start symbol: a cell that would show a conflict lacks one of
the alternatives.
-/

namespace PredictiveParsing

/-- A row of parse trees: empty, or a tree with the trees to its right. A tree
is a terminal, or a variable with one of its alternatives and the trees below
it. -/
inductive Forest where
  /-- No tree. -/
  | empty
  /-- A terminal. -/
  | leaf (name : String) (rest : Forest)
  /-- A variable that is replaced by an alternative. -/
  | node (name : String) (body : Body) (below rest : Forest)
  deriving DecidableEq

namespace Forest

/-- The symbols from which the trees of a row grow. -/
def roots : Forest → List Symbol
  | empty => []
  | leaf t rest => .terminal t :: rest.roots
  | node n _ _ rest => .nonterminal n :: rest.roots

/-- The terminals at the leaves. -/
def word : Forest → List Symbol
  | empty => []
  | leaf t rest => .terminal t :: rest.word
  | node _ _ below rest => below.word ++ rest.word

/-- Every variable has an alternative, and the trees below it are those of the
symbols of the alternative. -/
def Valid (P : Productions) : Forest → Prop
  | empty => True
  | leaf _ rest => rest.Valid P
  | node n body below rest =>
    body ∈ P (.nonterminal n) ∧ below.roots = Body.spelled body ∧ below.Valid P ∧ rest.Valid P

/-- The nodes are checked one by one. -/
def decidableValid (P : Productions) : (s : Forest) → Decidable (s.Valid P)
  | empty => isTrue trivial
  | leaf _ rest => decidableValid P rest
  | node _ _ below rest =>
    have := decidableValid P below
    have := decidableValid P rest
    inferInstanceAs (Decidable (_ ∧ _ ∧ _ ∧ _))

instance (P : Productions) (s : Forest) : Decidable (s.Valid P) := decidableValid P s

variable {P : Productions}

/-- The roots of valid trees yield the terminals at the leaves. -/
theorem Valid.yields {s : Forest} (h : s.Valid P) : Yields P s.roots s.word := by
  induction s with
  | empty => exact .nil
  | leaf t rest ih => exact .terminal (ih h)
  | node n body below rest ihbelow ihrest =>
    obtain ⟨hmem, hroots, hbelow, hrest⟩ := h
    have hinner := ihbelow hbelow
    rw [hroots] at hinner
    exact .expand hmem (yields_spelled.mp hinner) (ihrest hrest)

/-- What a form yields stands at the leaves of valid trees. -/
theorem exists_of_yields {form w : List Symbol} (h : Yields P form w) :
    ∃ s : Forest, s.Valid P ∧ s.roots = Body.spelled form ∧ s.word = w := by
  induction h with
  | nil => exact ⟨empty, trivial, rfl, rfl⟩
  | epsilon _ ih => exact ih
  | @terminal t rest w _ ih =>
    obtain ⟨s, hs, hroots, hword⟩ := ih
    exact ⟨leaf t s, hs, by rw [roots, hroots, Body.spelled_terminal], by rw [word, hword]⟩
  | @expand n body rest u v mem _ _ ihu ihv =>
    obtain ⟨below, hbelow, hinner, rfl⟩ := ihu
    obtain ⟨s, hs, hroots, rfl⟩ := ihv
    exact ⟨node n body below s, ⟨mem, hinner, hbelow, hs⟩,
      by rw [roots, hroots, Body.spelled_nonterminal], rfl⟩

end Forest

/-- What a form generates are the strings at the leaves of the trees that grow
from its symbols. -/
theorem generates_iff_exists_forest {P : Productions} {form w : List Symbol}
    (h : .epsilon ∉ form) :
    Generates P form w ↔ ∃ s : Forest, s.Valid P ∧ s.roots = form ∧ s.word = w := by
  rw [generates_iff_yields h]
  constructor
  · intro hy
    obtain ⟨s, hs, hroots, hword⟩ := Forest.exists_of_yields hy
    exact ⟨s, hs, by rw [hroots, Body.spelled_eq_self h], hword⟩
  · rintro ⟨s, hs, rfl, rfl⟩
    exact hs.yields

namespace Grammar

/-- A string is at the leaves of at most one valid tree from the start
symbol. -/
def Unambiguous (g : Grammar) : Prop :=
  ∀ s t : Forest, s.Valid g.rulesOf → t.Valid g.rulesOf → s.roots = [g.start] →
    t.roots = [g.start] → s.word = t.word → s = t

/-- No variable has two alternatives that derive the empty string. -/
def VanishesOnce (g : Grammar) : Prop :=
  ∀ a, ∀ body ∈ g.rulesOf a, ∀ other ∈ g.rulesOf a, Generates g.rulesOf (Body.spelled body) [] →
    Generates g.rulesOf (Body.spelled other) [] → body = other

/-- In a form derived from the start symbol, a string that is yielded from a
variable on leaves one alternative of the variable. -/
def Determined (g : Grammar) : Prop :=
  ∀ left a right body other w, Derives g.rulesOf [g.start] (left ++ a :: right) →
    body ∈ g.rulesOf a → other ∈ g.rulesOf a → Yields g.rulesOf (Body.spelled body ++ right) w →
    Yields g.rulesOf (Body.spelled other ++ right) w → body = other

variable {g : Grammar}

/-- Where no alternative begins with a symbol that can vanish, only one of
them derives the empty string. -/
theorem HeadsStay.vanishesOnce (hs : g.HeadsStay) : g.VanishesOnce := by
  have only : ∀ a, ∀ body ∈ g.rulesOf a, Generates g.rulesOf (Body.spelled body) [] →
      body = epsilonBody := fun a body hb ⟨hderives, _⟩ =>
    hs.eq_epsilonBody hb (yields_spelled.mp (.of_derives hderives .nil))
  intro a body hb other ho hbody hother
  rw [only a body hb hbody, only a other ho hother]

/-- A complete table without conflicts determines the alternatives by the next
terminal. Where no terminal is left, they are those that vanish. -/
theorem CompleteTable.determined (hc : g.CompleteTable) (hg : g.Closed)
    (hll : (ActionTable.ofGrammar g).isLL 1 = true) (hv : g.VanishesOnce) : g.Determined := by
  intro left a right body other w hform hb ho hbody hother
  cases w with
  | cons t rest =>
    exact ActionTable.eq_of_isLL hll (hc.mem_cell_of_yields hg hform hb hbody)
      (hc.mem_cell_of_yields hg hform ho hother)
  | nil =>
    have hvanishes : ∀ {b : Body}, Yields g.rulesOf (Body.spelled b ++ right) [] →
        Generates g.rulesOf (Body.spelled b) [] := by
      intro b hyields
      obtain ⟨u, v, huv, hu, -⟩ := hyields.split
      rw [(List.append_eq_nil_iff.mp huv.symm).1] at hu
      exact (generates_iff_yields b.epsilon_notMem_spelled).mpr hu
    exact hv a body hb other ho (hvanishes hbody) (hvanishes hother)

/-- Where alternatives are determined, trees are: two rows of trees that grow
from the same part of a derived form are equal if their strings are, with what
the rest of the form yields behind them. -/
theorem Determined.eq_of_valid (hd : g.Determined) {s t : Forest} (hs : s.Valid g.rulesOf)
    (ht : t.Valid g.rulesOf) (hroots : s.roots = t.roots) {left behind u v : List Symbol}
    (hform : Derives g.rulesOf [g.start] (left ++ (s.roots ++ behind)))
    (hu : Yields g.rulesOf behind u) (hv : Yields g.rulesOf behind v)
    (hword : s.word ++ u = t.word ++ v) : s = t := by
  -- the trees are read from the left: `left` has been read, `behind` stands to the right
  induction s generalizing t left behind u v with
  | empty =>
    cases t with
    | empty => rfl
    | leaf => cases hroots
    | node => cases hroots
  | leaf x rest ih =>
    cases t with
    | empty => cases hroots
    | node => cases hroots
    | leaf y rest' =>
      obtain ⟨hxy, hrest⟩ := List.cons.inj hroots
      obtain ⟨-, hword⟩ := List.cons.inj hword
      rw [Forest.Valid] at hs ht
      rw [Forest.roots, List.cons_append, List.append_cons] at hform
      rw [Symbol.terminal.inj hxy, ih hs ht hrest hform hu hv hword]
  | node n body below rest ihbelow ihrest =>
    cases t with
    | empty => cases hroots
    | leaf => cases hroots
    | node m other below' rest' =>
      obtain ⟨hn, hbehind⟩ := List.cons.inj hroots
      obtain rfl := Symbol.nonterminal.inj hn
      obtain ⟨hb, hbelowRoots, hbelow, hrest⟩ := hs
      obtain ⟨ho, hotherRoots, hbelow', hrest'⟩ := ht
      rw [Forest.word, Forest.word, List.append_assoc, List.append_assoc] at hword
      rw [Forest.roots, List.cons_append] at hform
      -- what comes after the two variables
      have hafter : Yields g.rulesOf (rest.roots ++ behind) (rest.word ++ u) :=
        hrest.yields.append hu
      have hafter' : Yields g.rulesOf (rest.roots ++ behind) (rest'.word ++ v) :=
        hbehind ▸ hrest'.yields.append hv
      have hsame : body = other := by
        refine hd left (.nonterminal n) (rest.roots ++ behind) body other _ hform hb ho
          (hbelowRoots ▸ hbelow.yields.append hafter) ?_
        rw [hword]
        exact hotherRoots ▸ hbelow'.yields.append hafter'
      subst hsame
      have hopened := hform.tail (.apply left (rest.roots ++ behind) hb)
      rw [← hbelowRoots] at hopened
      obtain rfl := ihbelow hbelow hbelow' (hbelowRoots.trans hotherRoots.symm) hopened hafter
        hafter' hword
      rw [List.append_cons] at hform
      rw [ihrest hrest hrest' hbehind hform hu hv (List.append_cancel_left hword)]

/-- Two trees of one string. -/
def TwoTrees (g : Grammar) (s t : Forest) : Prop :=
  (s.Valid g.rulesOf ∧ s.roots = [g.start]) ∧ (t.Valid g.rulesOf ∧ t.roots = [g.start]) ∧
    s.word = t.word ∧ s ≠ t

instance (g : Grammar) (s t : Forest) : Decidable (g.TwoTrees s t) :=
  inferInstanceAs (Decidable (_ ∧ _ ∧ _ ∧ _))

/-- A closed grammar is reduced to a closed one that has a table without
conflicts and is ambiguous. -/
def HidesAmbiguity (g : Grammar) : Prop :=
  g.Closed ∧ ∃ r, g.reduce {} = .ok r ∧ r.Closed ∧ (ActionTable.ofGrammar r).isLL 1 = true ∧
    ¬r.Unambiguous

/-- Two trees of the reduced grammar tell of it. -/
theorem Closed.hidesAmbiguity (hg : g.Closed) {s t : Forest}
    (h : (g.reduce {}).toOption.map (fun r =>
      ((ActionTable.ofGrammar r).isLL 1, decide (r.TwoTrees s t))) = some (true, true)) :
    g.HidesAmbiguity := by
  obtain ⟨r, hr, hrest⟩ := exists_ok_of_toOption h
  obtain ⟨hll, htrees⟩ := Prod.mk.inj hrest
  obtain ⟨⟨hs, hstart⟩, ⟨ht, hstart'⟩, hword, hne⟩ := of_decide_eq_true htrees
  exact ⟨hg, r, hr, (hg.reduce hr).1, hll,
    fun hunique => hne (hunique s t hs ht hstart hstart' hword)⟩

/-- Conditionals that may have an else part. -/
def conditionals : Grammar :=
  ⟨componentsOfNames ["S", "T"] ["if", "else", "act"]
    [("S", [["if", "S", "T"], ["act"]]), ("T", [["else", "S"], ["epsilon"]])] "S" none,
    by decide +kernel⟩

theorem conditionals_closed : conditionals.Closed := closed_of_componentsOfNames rfl

/-- One of two variables that both derive the empty string. -/
def optionalEither : Grammar :=
  ⟨componentsOfNames ["S", "A", "B"] ["a", "b"]
    [("S", [["A"], ["B"]]), ("A", [["a"], ["epsilon"]]), ("B", [["b"], ["epsilon"]])] "S" none,
    by decide +kernel⟩

theorem optionalEither_closed : optionalEither.Closed := closed_of_componentsOfNames rfl

end Grammar

namespace Forest

/-- A command, with what may come after it. -/
def act (rest : Forest) : Forest := node "S" [.terminal "act"] (leaf "act" empty) rest

/-- A conditional around a command and its else part, with what may come after
it. -/
def conditional (inner rest : Forest) : Forest :=
  node "S" [.terminal "if", .nonterminal "S", .nonterminal "T"] (leaf "if" inner) rest

/-- A command as the else part of a conditional. -/
def otherwise : Forest :=
  node "T" [.terminal "else", .nonterminal "S"] (leaf "else" (act empty)) empty

/-- A variable that is replaced by the empty string. -/
def vanished (name : String) : Forest := node name epsilonBody empty empty

end Forest

namespace Grammar

end Grammar

end PredictiveParsing
