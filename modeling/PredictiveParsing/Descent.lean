import PredictiveParsing.Parser
import PredictiveParsing.ParseTree

/-!
# The predictive descent

A parse descends from the start symbol and applies rules in leftmost order.
What is under way is kept on a stack of frames: a node of the tree with the
symbols of its rule that are still unread. A variable at the front of the
unread symbols is expanded by the selected alternative, which gets a frame
of its own; the empty string leaves no node. Any other symbol is matched
with the current token.

The state holds the numbers of the applied rules, the place in the stream
and the tree. It survives an error as it was when the error was met.

The descent need not end where the grammar has left recursion. It is run for
a limited number of steps. The limit of `parse` exceeds the number of steps
of every descent that ends: the alternative of a variable depends on the
current token only, so that a variable expanded inside its own expansion with
the same token current would be so expanded forever.
-/

namespace PredictiveParsing

/-- What a parse has done so far. -/
structure ParseState where
  /-- The numbers of the applied rules, in the order of application. -/
  trace : List Nat := []
  /-- The number of matched tokens. -/
  cursor : Nat := 0
  /-- The nodes built. -/
  tree : ParseTree := {}
  deriving DecidableEq

/-- A node whose rule is not read to its end. -/
structure Frame where
  /-- The place of the node. -/
  node : Nat
  /-- The symbols of the rule that are still to be read. -/
  unread : List Symbol
  deriving DecidableEq

/-- A step of the descent leads to a further configuration, or the descent
ends, with an error or without. -/
inductive Progress where
  /-- The descent goes on. -/
  | running (state : ParseState) (stack : List Frame)
  /-- All frames are read. -/
  | finished (state : ParseState)
  /-- A token is rejected. -/
  | failed (state : ParseState) (error : SyntaxError)
  deriving DecidableEq

/-- How a descent ended: the state it left, and a result or an error. -/
structure Outcome (α : Type) where
  /-- The state at the end. -/
  state : ParseState
  /-- What was obtained. -/
  result : Except SyntaxError α

namespace Parser

/-- The token at the place of a state. -/
def current (p : Parser) (s : ParseState) : Token := p.stream.token s.cursor

/-- The alternative selected for a variable in a state: its number and its
body. -/
def chosenRule (p : Parser) (a : Symbol) (s : ParseState) : Option (Nat × Body) :=
  (p.select a (p.current s).unit).map fun i =>
    ((p.grammar.firstNumber? a).getD 0 + i, (p.grammar.rulesOf a)[i]?.getD epsilonBody)

/-- A variable expanded: the rule is noted, and unless it is the empty string
there is a new node with the symbols of the rule unread. -/
def expand (p : Parser) (a : Symbol) (s : ParseState) :
    Except SyntaxError (ParseState × Option Frame) :=
  match p.chosenRule a s with
  | none => .error (.noProduction a (p.acceptable a) (p.current s))
  | some (number, body) =>
    let noted := { s with trace := s.trace ++ [number] }
    if body = epsilonBody then .ok (noted, none)
    else
      let (tree, node) := s.tree.addNode a none
      .ok ({ noted with tree }, some ⟨node, body⟩)

/-- A terminal matched with the current token: there is a new node for it,
whose place is returned, and the next token becomes current. -/
def consume (p : Parser) (a : Symbol) (s : ParseState) : Except SyntaxError (ParseState × Nat) :=
  let token := p.current s
  let expected := p.unitOf a
  if token.unit = expected then
    let (tree, node) := s.tree.addNode a (some token)
    .ok ({ s with cursor := s.cursor + 1, tree }, node)
  else .error (.mismatch expected token)

/-- A state with one node made a child of another. -/
def linked (s : ParseState) (parent child : Nat) : ParseState :=
  { s with tree := s.tree.link parent child }

/-- One step of the descent. -/
def step (p : Parser) (s : ParseState) : List Frame → Progress
  | [] => .finished s
  | ⟨_, []⟩ :: below => .running s below
  | ⟨node, x :: unread⟩ :: below =>
    if x ∈ p.grammar.vars then
      match p.expand x s with
      | .error e => .failed s e
      | .ok (next, none) => .running next (⟨node, unread⟩ :: below)
      | .ok (next, some frame) =>
        .running (linked next node frame.node) (frame :: ⟨node, unread⟩ :: below)
    else
      match p.consume x s with
      | .error e => .failed s e
      | .ok (next, leaf) => .running (linked next node leaf) (⟨node, unread⟩ :: below)

/-- The descent from a configuration, for a limited number of steps; nothing
if it has not ended by then. -/
def run (p : Parser) : (limit : Nat) → ParseState → List Frame → Option (Outcome Unit)
  | 0, _, _ => none
  | limit + 1, s, stack =>
    match p.step s stack with
    | .running next frames => run p limit next frames
    | .finished last => some ⟨last, .ok ()⟩
    | .failed last e => some ⟨last, .error e⟩

/-- The descent from a variable in a state. Its result is the place of the
node of the variable, or nothing where the empty string was applied. -/
def build (p : Parser) (limit : Nat) (a : Symbol) (s : ParseState) :
    Option (Outcome (Option Nat)) :=
  match p.expand a s with
  | .error e => some ⟨s, .error e⟩
  | .ok (next, none) => some ⟨next, .ok none⟩
  | .ok (next, some frame) =>
    (p.run limit next [frame]).map fun o => ⟨o.state, o.result.map fun _ => some frame.node⟩

/-- What a parse makes of a finished descent from the start symbol: the tree
gets its root, and the end of the stream is demanded if the settings say so. -/
def conclude (p : Parser) (o : Outcome (Option Nat)) : Outcome Unit :=
  match o.result with
  | .error e => ⟨o.state, .error e⟩
  | .ok root =>
    let rooted := { o.state with tree := o.state.tree.setRoot root }
    if p.settings.requireEndOfStream ∧ (p.current rooted).unit ≠ p.stream.endUnit then
      ⟨rooted, .error (.mismatch p.stream.endUnit (p.current rooted))⟩
    else ⟨rooted, .ok ()⟩

/-- A parse of limited length. -/
def parseWithin (p : Parser) (limit : Nat) : Option (Outcome Unit) :=
  (p.build limit p.grammar.start {}).map p.conclude

/-- The length of the longest body. -/
def longestBody (g : Grammar) : Nat :=
  g.rules.entries.foldl (fun most entry =>
    entry.2.foldl (fun most body => max most body.length) most) 1

/-- A number of steps that suffices for every descent that ends. With `v`
variables and bodies of at most `b` symbols, expansions nest at most `v`
deep while the current token stays the same, so that a symbol leads to at
most `(b + 1) ^ v` others, and at most `v * b` unread symbols are added per
token. -/
def stepLimit (p : Parser) : Nat :=
  let v := p.grammar.vars.size
  let b := longestBody p.grammar
  let n := p.stream.size
  2 * (n * (1 + n * v * b) * Nat.pow (b + 1) v + 1)

/-- The parse of the stream from the start symbol; nothing if it does not
end. -/
def parse (p : Parser) : Option (Outcome Unit) := p.parseWithin p.stepLimit

/-- Steps that a longer limit leaves unused do not matter. -/
theorem run_mono {p : Parser} {limit more : Nat} {s : ParseState} {stack : List Frame}
    {o : Outcome Unit} (h : p.run limit s stack = some o) (hle : limit ≤ more) :
    p.run more s stack = some o := by
  induction limit generalizing more s stack with
  | zero => cases h
  | succ limit ih =>
    cases more with
    | zero => omega
    | succ more =>
      simp only [run] at h ⊢
      split at h
      · exact ih h (by omega)
      · exact h
      · exact h

end Parser

end PredictiveParsing
