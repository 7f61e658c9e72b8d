import PredictiveParsing.Proofs.Descent.Moves
import PredictiveParsing.Proofs.Grammar.Names

/-!
# The descent as a recursion

The descent can be told as a recursion: a variable selects an alternative,
gets a node unless it vanishes, and reads the symbols of the alternative from
left to right, by recursion for variables. The recursion links the node of a
variable to its parent when the subtree is complete, while the descent on
the stack links it before. Nothing that the recursion does below a node looks
at the links above it, so that the early link can be moved behind the subtree,
and both leave the same arena. Where an error breaks off the work, only the
links that the recursion still owes are missing.
-/

namespace PredictiveParsing

namespace ParseTree

/-- Linking keeps the number of nodes. -/
theorem size_link (t : ParseTree) (parent child : Nat) : (t.link parent child).size = t.size := by
  rw [size, link, update, update, Array.size_modify, Array.size_modify, size]

/-- Links from different parents to different children can be made in any
order. -/
theorem link_comm (t : ParseTree) {parent other child node : Nat} (hparent : parent ≠ other)
    (hchild : child ≠ node) :
    (t.link parent child).link other node = (t.link other node).link parent child := by
  have hnodes : ((t.link parent child).link other node).nodes =
      ((t.link other node).link parent child).nodes := by
    refine Array.ext_getElem? fun i => ?_
    simp only [link, update, Array.getElem?_modify]
    cases t.nodes[i]? with
    | none => split <;> split <;> split <;> split <;> rfl
    | some n =>
      by_cases h₁ : parent = i <;> by_cases h₂ : child = i <;> by_cases h₃ : other = i <;>
        by_cases h₄ : node = i <;> simp_all
  exact eq_of_nodes hnodes rfl

/-- A place inside the arena is not affected by a further node. -/
theorem update_addNode (t : ParseTree) {i : Nat} (h : i < t.size) (f : ParseNode → ParseNode)
    (label : Symbol) (token : Option Token) :
    (t.addNode label token).1.update i f = ((t.update i f).addNode label token).1 := by
  have hnodes : (t.nodes.push { label, token }).modify i f =
      (t.nodes.modify i f).push { label, token } := by
    refine Array.ext_getElem? fun j => ?_
    rw [Array.getElem?_push, Array.getElem?_modify, Array.getElem?_push, Array.getElem?_modify,
      Array.size_modify]
    by_cases hj : j = t.nodes.size
    · have hij : i ≠ j := by
        rw [hj]
        exact Nat.ne_of_lt h
      rw [if_pos hj, if_neg hij, if_pos hj]
    · rw [if_neg hj, if_neg hj]
  exact eq_of_nodes hnodes rfl

/-- Linking nodes of the arena is not affected by a further node. -/
theorem link_addNode (t : ParseTree) {parent child : Nat} (hparent : parent < t.size)
    (hchild : child < t.size) (label : Symbol) (token : Option Token) :
    (t.addNode label token).1.link parent child =
      ((t.link parent child).addNode label token).1 := by
  have hupdated : parent < (t.update child fun n => { n with parent := some parent }).size := by
    rw [size, update, Array.size_modify]
    exact hparent
  rw [link, update_addNode t hchild, update_addNode _ hupdated, link]

end ParseTree

/-- An outcome with a link made in the state that was left. -/
def Outcome.linked {α : Type} (o : Outcome α) (parent child : Nat) : Outcome α :=
  ⟨Parser.linked o.state parent child, o.result⟩

namespace Parser

/-- The symbols of a rule, read from left to right below a node: a recursion
handles the variables, and the node that it gives back, if any, is linked
then. -/
def readSymbols (p : Parser) (recur : Symbol → ParseState → Option (Outcome (Option Nat)))
    (node : Nat) : List Symbol → ParseState → Option (Outcome Unit)
  | [], s => some ⟨s, .ok ()⟩
  | x :: unread, s =>
    if x ∈ p.grammar.vars then
      match recur x s with
      | none => none
      | some ⟨t, .error e⟩ => some ⟨t, .error e⟩
      | some ⟨t, .ok none⟩ => readSymbols p recur node unread t
      | some ⟨t, .ok (some child)⟩ => readSymbols p recur node unread (linked t node child)
    else
      match p.consume x s with
      | .error e => some ⟨s, .error e⟩
      | .ok (t, leaf) => readSymbols p recur node unread (linked t node leaf)

/-- The descent from a variable as a recursion of limited depth; nothing if
it goes deeper. Its result is the place of the node of the variable, or
nothing where the empty string was applied. -/
def descend (p : Parser) : (depth : Nat) → Symbol → ParseState → Option (Outcome (Option Nat))
  | 0, _, _ => none
  | depth + 1, a, s =>
    match p.chosenRule a s with
    | none => some ⟨s, .error (.noProduction a (p.acceptable a) (p.current s))⟩
    | some (number, body) =>
      let noted := { s with trace := s.trace ++ [number] }
      if body = epsilonBody then some ⟨noted, .ok none⟩
      else
        let (tree, node) := s.tree.addNode a none
        (p.readSymbols (p.descend depth) node body { noted with tree }).map fun o =>
          ⟨o.state, o.result.map fun _ => some node⟩

/-- A reading of symbols below a node, symbol by symbol. -/
inductive Reads (p : Parser) (recur : Symbol → ParseState → Option (Outcome (Option Nat)))
    (node : Nat) : List Symbol → ParseState → Outcome Unit → Prop
  /-- All symbols are read. -/
  | done {s : ParseState} : Reads p recur node [] s ⟨s, .ok ()⟩
  /-- The recursion meets an error. -/
  | broken {s t : ParseState} {x : Symbol} {unread : List Symbol} {e : SyntaxError}
      (mem : x ∈ p.grammar.vars) (called : recur x s = some ⟨t, .error e⟩) :
      Reads p recur node (x :: unread) s ⟨t, .error e⟩
  /-- The variable vanishes. -/
  | vanished {s t : ParseState} {x : Symbol} {unread : List Symbol} {o : Outcome Unit}
      (mem : x ∈ p.grammar.vars) (called : recur x s = some ⟨t, .ok none⟩)
      (rest : Reads p recur node unread t o) : Reads p recur node (x :: unread) s o
  /-- The variable gets a subtree, which is linked. -/
  | built {s t : ParseState} {x : Symbol} {unread : List Symbol} {child : Nat}
      {o : Outcome Unit} (mem : x ∈ p.grammar.vars)
      (called : recur x s = some ⟨t, .ok (some child)⟩)
      (rest : Reads p recur node unread (linked t node child) o) :
      Reads p recur node (x :: unread) s o
  /-- The current token does not match. -/
  | refused {s : ParseState} {x : Symbol} {unread : List Symbol} {e : SyntaxError}
      (notMem : x ∉ p.grammar.vars) (consumed : p.consume x s = .error e) :
      Reads p recur node (x :: unread) s ⟨s, .error e⟩
  /-- The current token matches, and its leaf is linked. -/
  | taken {s t : ParseState} {x : Symbol} {unread : List Symbol} {leaf : Nat}
      {o : Outcome Unit} (notMem : x ∉ p.grammar.vars) (consumed : p.consume x s = .ok (t, leaf))
      (rest : Reads p recur node unread (linked t node leaf) o) :
      Reads p recur node (x :: unread) s o

variable {p : Parser} {recur : Symbol → ParseState → Option (Outcome (Option Nat))}

/-- What `readSymbols` computes is a reading. -/
theorem reads_of_readSymbols {node : Nat} {body : List Symbol} {s : ParseState}
    {o : Outcome Unit} (h : p.readSymbols recur node body s = some o) :
    p.Reads recur node body s o := by
  induction body generalizing s with
  | nil =>
    rw [← Option.some.inj h]
    exact .done
  | cons x unread ih =>
    rw [readSymbols] at h
    split at h
    · next hx =>
      split at h
      · cases h
      · next t e hcall =>
        rw [← Option.some.inj h]
        exact .broken hx hcall
      · next t hcall => exact .vanished hx hcall (ih h)
      · next t child hcall => exact .built hx hcall (ih h)
    · next hx =>
      split at h
      · next e hconsume =>
        rw [← Option.some.inj h]
        exact .refused hx hconsume
      · next t leaf hconsume => exact .taken hx hconsume (ih h)

/-- A reading is what `readSymbols` computes. -/
theorem Reads.readSymbols {node : Nat} {body : List Symbol} {s : ParseState} {o : Outcome Unit}
    (h : p.Reads recur node body s o) : p.readSymbols recur node body s = some o := by
  induction h with
  | done => rfl
  | broken mem called => rw [Parser.readSymbols, if_pos mem, called]
  | vanished mem called _ ih => rw [Parser.readSymbols, if_pos mem, called]; exact ih
  | built mem called _ ih => rw [Parser.readSymbols, if_pos mem, called]; exact ih
  | refused notMem consumed => rw [Parser.readSymbols, if_neg notMem, consumed]
  | taken notMem consumed _ ih => rw [Parser.readSymbols, if_neg notMem, consumed]; exact ih

/-- The state where a rule is noted and its variable has a node. -/
def opened (s : ParseState) (number : Nat) (a : Symbol) : ParseState :=
  { s with trace := s.trace ++ [number], tree := (s.tree.addNode a none).1 }

/-- A descent of the recursion rejects the variable, vanishes, or reads the
selected alternative below a new node. -/
theorem descend_eq_some {depth : Nat} {a : Symbol} {s : ParseState} {o : Outcome (Option Nat)}
    (h : p.descend (depth + 1) a s = some o) :
    (p.chosenRule a s = none ∧
      o = ⟨s, .error (.noProduction a (p.acceptable a) (p.current s))⟩) ∨
    (∃ k, p.chosenRule a s = some (k, epsilonBody) ∧
      o = ⟨{ s with trace := s.trace ++ [k] }, .ok none⟩) ∨
    ∃ k body inner, p.chosenRule a s = some (k, body) ∧ body ≠ epsilonBody ∧
      p.Reads (p.descend depth) s.tree.size body (opened s k a) inner ∧
      o = ⟨inner.state, inner.result.map fun _ => some s.tree.size⟩ := by
  rw [descend] at h
  cases hc : p.chosenRule a s with
  | none =>
    rw [hc] at h
    exact .inl ⟨rfl, (Option.some.inj h).symm⟩
  | some rule =>
    obtain ⟨k, body⟩ := rule
    rw [hc] at h
    dsimp only at h
    split at h
    · next hb => exact .inr (.inl ⟨k, by rw [hb], (Option.some.inj h).symm⟩)
    · next hb =>
      obtain ⟨inner, hinner, ho⟩ := Option.map_eq_some_iff.mp h
      exact .inr (.inr ⟨k, body, inner, rfl, hb, reads_of_readSymbols hinner, ho.symm⟩)

/-- What is read below a new node is a descent of the recursion. -/
theorem Reads.descend {depth k : Nat} {a : Symbol} {s : ParseState} {body : Body}
    {inner : Outcome Unit} (chosen : p.chosenRule a s = some (k, body)) (ne : body ≠ epsilonBody)
    (h : p.Reads (p.descend depth) s.tree.size body (opened s k a) inner) :
    p.descend (depth + 1) a s =
      some ⟨inner.state, inner.result.map fun _ => some s.tree.size⟩ := by
  rw [Parser.descend, chosen]
  dsimp only
  rw [if_neg ne]
  exact congrArg (Option.map _) h.readSymbols

/-- What a recursion does to the arena: it only grows, a node that is given
back is new, and a link between nodes that were there can be made before or
after. -/
structure Tidy (recur : Symbol → ParseState → Option (Outcome (Option Nat))) : Prop where
  /-- The arena does not shrink. -/
  size_le : ∀ a s t result, recur a s = some ⟨t, result⟩ → s.tree.size ≤ t.tree.size
  /-- A node that is given back is new and in the arena. -/
  fresh : ∀ a s t child, recur a s = some ⟨t, .ok (some child)⟩ →
    s.tree.size ≤ child ∧ child < t.tree.size
  /-- A link that was made before could have been made afterwards. -/
  early : ∀ a s o parent child, recur a s = some o → parent < s.tree.size →
    child < s.tree.size → recur a (linked s parent child) = some (o.linked parent child)

/-- The arena of a linked state is as large as before. -/
theorem size_linked (s : ParseState) (parent child : Nat) :
    (linked s parent child).tree.size = s.tree.size := ParseTree.size_link s.tree parent child

/-- Taking a token adds a node. -/
theorem consume_eq_ok {x : Symbol} {s t : ParseState} {leaf : Nat}
    (h : p.consume x s = .ok (t, leaf)) :
    (p.current s).unit = p.unitOf x ∧ leaf = s.tree.size ∧
      t = { s with cursor := s.cursor + 1,
                   tree := (s.tree.addNode x (some (p.current s))).1 } := by
  rw [consume] at h
  by_cases hu : (p.current s).unit = p.unitOf x
  · rw [if_pos hu] at h
    have he := Prod.mk.inj (Except.ok.inj h)
    exact ⟨hu, he.2.symm, he.1.symm⟩
  · rw [if_neg hu] at h
    cases h

/-- A further node makes the arena larger by one. -/
theorem size_addNode (t : ParseTree) (label : Symbol) (token : Option Token) :
    (t.addNode label token).1.size = t.size + 1 := by
  rw [ParseTree.size, ParseTree.addNode, Array.size_push, ParseTree.size]

/-- Taking a token makes the arena larger by one. -/
theorem size_of_consume {x : Symbol} {s t : ParseState} {leaf : Nat}
    (h : p.consume x s = .ok (t, leaf)) : t.tree.size = s.tree.size + 1 := by
  obtain ⟨-, -, rfl⟩ := consume_eq_ok h
  exact size_addNode s.tree x _

/-- The new node makes the arena larger by one. -/
theorem size_opened (s : ParseState) (k : Nat) (a : Symbol) :
    (opened s k a).tree.size = s.tree.size + 1 := size_addNode s.tree a none

/-- A link that was made before a variable gets its node could have been made
afterwards. -/
theorem linked_opened {s : ParseState} {parent child : Nat} (hparent : parent < s.tree.size)
    (hchild : child < s.tree.size) (k : Nat) (a : Symbol) :
    linked (opened s k a) parent child = opened (linked s parent child) k a :=
  congrArg (fun tree => ({ s with trace := s.trace ++ [k], tree } : ParseState))
    (s.tree.link_addNode hparent hchild a none)

/-- Matching a token does not look at the links. -/
theorem consume_linked_eq_error {x : Symbol} {s : ParseState} {e : SyntaxError}
    (h : p.consume x s = .error e) (parent child : Nat) :
    p.consume x (linked s parent child) = .error e := by
  have hcurrent : p.current (linked s parent child) = p.current s := rfl
  rw [consume] at h ⊢
  rw [hcurrent]
  split at h
  · cases h
  · next hu => rw [if_neg hu, Except.error.inj h]

/-- A link that was made before a token is taken could have been made
afterwards. -/
theorem consume_linked_eq_ok {x : Symbol} {s t : ParseState} {leaf parent child : Nat}
    (h : p.consume x s = .ok (t, leaf)) (hparent : parent < s.tree.size)
    (hchild : child < s.tree.size) :
    p.consume x (linked s parent child) = .ok (linked t parent child, leaf) := by
  obtain ⟨hu, rfl, rfl⟩ := consume_eq_ok h
  have hcurrent : p.current (linked s parent child) = p.current s := rfl
  have htree := s.tree.link_addNode hparent hchild x (some (p.current s))
  have hleaf : (s.tree.link parent child).nodes.size = s.tree.size :=
    ParseTree.size_link s.tree parent child
  rw [consume, hcurrent, if_pos hu]
  simp only [linked, htree]
  rw [ParseTree.addNode, hleaf]

/-- A reading does not shrink the arena. -/
theorem Reads.size_le (hr : Tidy recur) {node : Nat} {body : List Symbol} {s : ParseState}
    {o : Outcome Unit} (h : p.Reads recur node body s o) :
    s.tree.size ≤ o.state.tree.size := by
  induction h with
  | done => exact Nat.le_refl _
  | broken _ called => exact hr.size_le _ _ _ _ called
  | vanished _ called _ ih => exact Nat.le_trans (hr.size_le _ _ _ _ called) ih
  | built _ called _ ih =>
    rw [size_linked] at ih
    exact Nat.le_trans (hr.size_le _ _ _ _ called) ih
  | refused => exact Nat.le_refl _
  | taken _ consumed _ ih =>
    rw [size_linked, size_of_consume consumed] at ih
    exact Nat.le_of_succ_le ih

/-- A link to a parent other than the node that is being read can be made
before or after the reading. -/
theorem Reads.early (hr : Tidy recur) {node parent child : Nat} {body : List Symbol}
    {s : ParseState} {o : Outcome Unit} (h : p.Reads recur node body s o)
    (hne : parent ≠ node) (hnode : node < s.tree.size) (hparent : parent < s.tree.size)
    (hchild : child < s.tree.size) :
    p.Reads recur node body (Parser.linked s parent child) (o.linked parent child) := by
  induction h with
  | done => exact .done
  | broken mem called => exact .broken mem (hr.early _ _ _ _ _ called hparent hchild)
  | vanished mem called _ ih =>
    have hsize := hr.size_le _ _ _ _ called
    refine .vanished mem (hr.early _ _ _ _ _ called hparent hchild) (ih ?_ ?_ ?_)
    · exact Nat.lt_of_lt_of_le hnode hsize
    · exact Nat.lt_of_lt_of_le hparent hsize
    · exact Nat.lt_of_lt_of_le hchild hsize
  | @built s t x unread subtree o mem called _ ih =>
    have hsize := hr.size_le _ _ _ _ called
    obtain ⟨hfresh, -⟩ := hr.fresh _ _ _ _ called
    rw [size_linked] at ih
    refine .built mem (hr.early _ _ _ _ _ called hparent hchild) ?_
    have hswap : Parser.linked (Parser.linked t parent child) node subtree =
        Parser.linked (Parser.linked t node subtree) parent child :=
      congrArg (fun tree => { t with tree }) (t.tree.link_comm hne (by omega))
    rw [hswap]
    exact ih (by omega) (by omega) (by omega)
  | refused notMem consumed => exact .refused notMem (consume_linked_eq_error consumed _ _)
  | @taken s t x unread leaf o notMem consumed _ ih =>
    obtain ⟨-, hleaf, -⟩ := consume_eq_ok consumed
    have hsize := size_of_consume consumed
    rw [size_linked] at ih
    refine .taken notMem (consume_linked_eq_ok consumed hparent hchild) ?_
    have hswap : Parser.linked (Parser.linked t parent child) node leaf =
        Parser.linked (Parser.linked t node leaf) parent child :=
      congrArg (fun tree => { t with tree }) (t.tree.link_comm hne (by omega))
    rw [hswap]
    exact ih (by omega) (by omega) (by omega)

/-- The recursion is tidy at every depth. -/
theorem tidy_descend (p : Parser) (depth : Nat) : Tidy (p.descend depth) := by
  induction depth with
  | zero =>
    refine ⟨fun a s t result h => ?_, fun a s t child h => ?_, fun a s o parent child h => ?_⟩
    · cases h
    · cases h
    · cases h
  | succ depth ih =>
    refine ⟨fun a s t result h => ?_, fun a s t child h => ?_,
      fun a s o parent child h hparent hchild => ?_⟩
    · rcases descend_eq_some h with ⟨-, ho⟩ | ⟨k, -, ho⟩ | ⟨k, body, inner, -, -, hr, ho⟩
      · exact Nat.le_of_eq (congrArg (·.tree.size) (Outcome.mk.inj ho).1.symm)
      · exact Nat.le_of_eq (congrArg (·.tree.size) (Outcome.mk.inj ho).1.symm)
      · have hsize := hr.size_le ih
        rw [size_opened] at hsize
        rw [(Outcome.mk.inj ho).1]
        exact Nat.le_of_succ_le hsize
    · rcases descend_eq_some h with ⟨-, ho⟩ | ⟨k, -, ho⟩ | ⟨k, body, inner, -, -, hr, ho⟩
      · cases (Outcome.mk.inj ho).2
      · cases (Outcome.mk.inj ho).2
      · have hsize := hr.size_le ih
        rw [size_opened] at hsize
        obtain ⟨hstate, hresult⟩ := Outcome.mk.inj ho
        cases hinner : inner.result with
        | error e => rw [hinner] at hresult; cases hresult
        | ok u =>
          rw [hinner] at hresult
          rw [hstate, Option.some.inj (Except.ok.inj hresult)]
          exact ⟨Nat.le_refl _, hsize⟩
    · have hchosen : p.chosenRule a (linked s parent child) = p.chosenRule a s := rfl
      rcases descend_eq_some h with ⟨hc, rfl⟩ | ⟨k, hc, rfl⟩ | ⟨k, body, inner, hc, hb, hr, rfl⟩
      · rw [descend, hchosen, hc]
        rfl
      · rw [descend, hchosen, hc]
        rfl
      · have hsize := size_opened s k a
        have hlinked := hr.early ih (Nat.ne_of_lt hparent) (by omega) (by omega)
          (Nat.lt_of_lt_of_eq (Nat.lt_succ_of_lt hchild) hsize.symm)
        rw [linked_opened hparent hchild, ← size_linked s parent child] at hlinked
        have hdescend := hlinked.descend (hchosen.trans hc) hb
        rw [size_linked] at hdescend
        exact hdescend

/-- A run that goes on from one configuration to another. -/
def Continues (p : Parser) (s : ParseState) (stack : List Frame) (t : ParseState)
    (frames : List Frame) : Prop :=
  ∃ steps, ∀ limit, p.run (limit + steps) s stack = p.run limit t frames

/-- A run that ends with an error, after the rules and tokens of a state. -/
def BreaksOff (p : Parser) (s : ParseState) (stack : List Frame) (t : ParseState)
    (e : SyntaxError) : Prop :=
  ∃ limit last, p.run limit s stack = some ⟨last, .error e⟩ ∧ last.trace = t.trace ∧
    last.cursor = t.cursor

/-- A run that does on the stack what the recursion did: it goes on where the
recursion gave something back, and breaks off where it met an error. -/
structure Follows {α : Type} (p : Parser) (s : ParseState) (stack : List Frame) (o : Outcome α)
    (after : α → ParseState × List Frame) : Prop where
  /-- The run goes on. -/
  ok : ∀ v, o.result = .ok v → p.Continues s stack (after v).1 (after v).2
  /-- The run breaks off. -/
  error : ∀ e, o.result = .error e → p.BreaksOff s stack o.state e

/-- A step that leads on. -/
theorem continues_of_step {s t : ParseState} {stack frames : List Frame}
    (h : p.step s stack = .running t frames) : p.Continues s stack t frames := by
  refine ⟨1, fun limit => ?_⟩
  rw [run, h]

/-- A run goes on from where it got. -/
theorem Continues.trans {s t u : ParseState} {stack frames rest : List Frame}
    (h : p.Continues s stack t frames) (h' : p.Continues t frames u rest) :
    p.Continues s stack u rest := by
  obtain ⟨steps, hsteps⟩ := h
  obtain ⟨more, hmore⟩ := h'
  refine ⟨more + steps, fun limit => ?_⟩
  rw [← Nat.add_assoc, hsteps, hmore]

/-- A run that goes on breaks off where it would from there. -/
theorem Continues.breaksOff {s t u : ParseState} {stack frames : List Frame} {e : SyntaxError}
    (h : p.Continues s stack t frames) (h' : p.BreaksOff t frames u e) :
    p.BreaksOff s stack u e := by
  obtain ⟨steps, hsteps⟩ := h
  obtain ⟨limit, last, hrun, hlast⟩ := h'
  exact ⟨limit + steps, last, (hsteps limit).trans hrun, hlast⟩

/-- A run that goes on follows what it would follow from there. -/
theorem Continues.follows {α : Type} {s t : ParseState} {stack frames : List Frame}
    {o : Outcome α} {after : α → ParseState × List Frame} (h : p.Continues s stack t frames)
    (h' : p.Follows t frames o after) : p.Follows s stack o after :=
  ⟨fun v hv => h.trans (h'.ok v hv), fun e he => h.breaksOff (h'.error e he)⟩

/-- A step that fails breaks the run off. -/
theorem breaksOff_of_step {s : ParseState} {stack : List Frame} {e : SyntaxError}
    (h : p.step s stack = .failed s e) : p.BreaksOff s stack s e := by
  refine ⟨1, s, ?_, rfl, rfl⟩
  rw [run, h]

/-- What a recursion gave back, linked to a node. -/
def attached (t : ParseState) (node : Nat) : Option Nat → ParseState
  | none => t
  | some child => linked t node child

/-- The stack does for a variable what the recursion does. -/
def OnStack (p : Parser) (recur : Symbol → ParseState → Option (Outcome (Option Nat))) : Prop :=
  ∀ a ∈ p.grammar.vars, ∀ s o, recur a s = some o → ∀ node unread below, node < s.tree.size →
    p.Follows s (⟨node, a :: unread⟩ :: below) o fun child =>
      (attached o.state node child, ⟨node, unread⟩ :: below)

/-- If the stack does for variables what the recursion does, it does for a
frame what a reading of its symbols does. -/
theorem Reads.follows (hr : Tidy recur) (hs : p.OnStack recur) {node : Nat}
    {body : List Symbol} {s : ParseState} {o : Outcome Unit}
    (h : p.Reads recur node body s o) (hnode : node < s.tree.size) (below : List Frame) :
    p.Follows s (⟨node, body⟩ :: below) o fun _ => (o.state, below) := by
  induction h with
  | done => exact ⟨fun _ _ => continues_of_step rfl, fun e he => by cases he⟩
  | broken mem called =>
    refine ⟨fun v hv => (by cases hv), fun e he => ?_⟩
    rw [← Except.error.inj he]
    exact (hs _ mem _ _ called node _ below hnode).error _ rfl
  | @vanished s t x unread o mem called _ ih =>
    have hsize := hr.size_le _ _ _ _ called
    have hcall := (hs x mem s _ called node unread below hnode).ok none rfl
    exact hcall.follows (ih (Nat.lt_of_lt_of_le hnode hsize))
  | @built s t x unread child o mem called _ ih =>
    have hsize := hr.size_le _ _ _ _ called
    have hcall := (hs x mem s _ called node unread below hnode).ok (some child) rfl
    rw [size_linked] at ih
    exact hcall.follows (ih (Nat.lt_of_lt_of_le hnode hsize))
  | refused notMem consumed =>
    refine ⟨fun v hv => (by cases hv), fun e he => ?_⟩
    rw [← Except.error.inj he]
    exact breaksOff_of_step (by rw [step, if_neg notMem, consumed])
  | @taken s t x unread leaf o notMem consumed _ ih =>
    have hsize := size_of_consume consumed
    rw [size_linked] at ih
    have hstep : p.step s (⟨node, x :: unread⟩ :: below) =
        .running (linked t node leaf) (⟨node, unread⟩ :: below) := by
      rw [step, if_neg notMem, consumed]
    exact (continues_of_step hstep).follows (ih (by omega))

/-- The stack does for variables what the recursion of any depth does. -/
theorem onStack_descend (p : Parser) (depth : Nat) : p.OnStack (p.descend depth) := by
  induction depth with
  | zero =>
    intro a _ s o h
    cases h
  | succ depth ih =>
    intro a ha s o h node unread below hnode
    rcases descend_eq_some h with ⟨hc, rfl⟩ | ⟨k, hc, rfl⟩ | ⟨k, body, inner, hc, hb, hr, rfl⟩
    · refine ⟨fun v hv => (by cases hv), fun e he => ?_⟩
      rw [← Except.error.inj he]
      exact breaksOff_of_step (by rw [step, if_pos ha, expand, hc])
    · refine ⟨fun v hv => ?_, fun e he => (by cases he)⟩
      rw [← Except.ok.inj hv]
      exact continues_of_step (by rw [step, if_pos ha, expand, hc]; rfl)
    · -- the stack links the new node first, the recursion reads below it first
      have htidy := tidy_descend p depth
      have hsize := size_opened s k a
      have hread := hr.early htidy (Nat.ne_of_lt hnode) (by omega) (by omega)
        (Nat.lt_of_lt_of_eq (Nat.lt_succ_self s.tree.size) hsize.symm)
      have hlinked := size_linked (opened s k a) node s.tree.size
      have hstep : p.step s (⟨node, a :: unread⟩ :: below) =
          .running (linked (opened s k a) node s.tree.size)
            (⟨s.tree.size, body⟩ :: ⟨node, unread⟩ :: below) := by
        rw [step, if_pos ha, expand, hc]
        dsimp only
        rw [if_neg hb]
        rfl
      have hfollows := (continues_of_step hstep).follows
        (hread.follows htidy ih (by omega) (⟨node, unread⟩ :: below))
      refine ⟨fun v hv => ?_, fun e he => ?_⟩
      · cases hinner : inner.result with
        | error e => rw [hinner] at hv; cases hv
        | ok u =>
          rw [hinner] at hv
          rw [← Except.ok.inj hv]
          exact hfollows.ok u hinner
      · cases hinner : inner.result with
        | error cause =>
          rw [hinner] at he
          rw [← Except.error.inj he]
          exact hfollows.error cause hinner
        | ok u => rw [hinner] at he; cases he

/-- Where the recursion halts, the descent on the stack halts, whatever limit
it is given from some limit on. Both give back the same node and leave the
same arena, or raise the same error; they have applied the same rules and
taken the same tokens. -/
theorem build_refines_descend {depth : Nat} {a : Symbol} {s : ParseState}
    {o : Outcome (Option Nat)} (h : p.descend depth a s = some o) :
    ∃ limit b, (∀ more, limit ≤ more → p.build more a s = some b) ∧ b.result = o.result ∧
      b.state.trace = o.state.trace ∧ b.state.cursor = o.state.cursor ∧
      ∀ node, o.result = .ok node → b.state.tree = o.state.tree := by
  cases depth with
  | zero => cases h
  | succ depth =>
    rcases descend_eq_some h with ⟨hc, rfl⟩ | ⟨k, hc, rfl⟩ | ⟨k, body, inner, hc, hb, hr, rfl⟩
    · refine ⟨0, _, fun more _ => ?_, rfl, rfl, rfl, fun node _ => rfl⟩
      rw [build, expand, hc]
    · refine ⟨0, _, fun more _ => ?_, rfl, rfl, rfl, fun node _ => rfl⟩
      rw [build, expand, hc]
      rfl
    · have hsize := size_opened s k a
      have hfollows := hr.follows (tidy_descend p depth) (onStack_descend p depth) (by omega) []
      have hbuild : ∀ {more : Nat} {last : Outcome Unit},
          p.run more (opened s k a) [⟨s.tree.size, body⟩] = some last →
          p.build more a s =
            some ⟨last.state, last.result.map fun _ => some s.tree.size⟩ := by
        intro more last hrun
        rw [build, expand, hc]
        dsimp only
        rw [if_neg hb]
        exact congrArg (Option.map _) hrun
      cases hinner : inner.result with
      | ok u =>
        obtain ⟨steps, hsteps⟩ := hfollows.ok u hinner
        have hrun := hsteps 1
        refine ⟨1 + steps, _, fun more hle => hbuild (run_mono hrun hle), ?_⟩
        exact ⟨rfl, rfl, rfl, fun node _ => rfl⟩
      | error e =>
        obtain ⟨limit, last, hrun, htrace, hcursor⟩ := hfollows.error e hinner
        refine ⟨limit, _, fun more hle => hbuild (run_mono hrun hle), rfl, htrace, hcursor, ?_⟩
        intro node hnode
        cases hnode

/-- On the sum `x + x` the recursion halts at depth eight, and the stack
builds the same tree. -/
theorem build_refines_descend_sums :
    ∃ p o, make {} Grammar.sums none (Token.ofNames ["x", "+", "x", "end"]) = .ok p ∧
      p.descend 8 p.grammar.start {} = some o ∧ o.result.toOption = some (some 0) ∧
      o.state.cursor = 3 ∧
      ∃ limit b, (∀ more, limit ≤ more → p.build more p.grammar.start {} = some b) ∧
        b.result = o.result ∧ b.state.trace = o.state.trace ∧ b.state.cursor = o.state.cursor ∧
        ∀ node, o.result = .ok node → b.state.tree = o.state.tree := by
  have hrun : ((make {} Grammar.sums none
      (Token.ofNames ["x", "+", "x", "end"])).toOption.bind fun p =>
        (p.descend 8 p.grammar.start {}).map fun o => (o.result.toOption, o.state.cursor)) =
      some (some (some 0), 3) := by
    decide +kernel
  obtain ⟨p, hmake, hdescend⟩ := exists_of_make_bind hrun
  obtain ⟨o, ho, hresult⟩ := Option.map_eq_some_iff.mp hdescend
  obtain ⟨hok, hcursor⟩ := Prod.mk.inj hresult
  exact ⟨p, o, hmake, ho, hok, hcursor, build_refines_descend ho⟩

end Parser

end PredictiveParsing
