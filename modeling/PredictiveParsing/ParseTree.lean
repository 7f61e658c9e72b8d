import PredictiveParsing.Symbol
import PredictiveParsing.Token

/-!
# Parse trees in an arena

The nodes of a tree lie in an arena and refer to each other by their places
in it. Cutting off or dissolving a node changes references only: nodes are
never removed from the arena, and places keep their meaning. An edit that
names a place outside the arena, or a link that is not there, fails; what
it had changed by then stays changed.
-/

namespace PredictiveParsing

/-- A node of a parse tree. -/
structure ParseNode where
  /-- The symbol that the node stands for. -/
  label : Symbol
  /-- The token that a terminal was matched with. -/
  token : Option Token := none
  /-- The places of the children, left to right. -/
  children : List Nat := []
  /-- The place of the parent. -/
  parent : Option Nat := none
  deriving DecidableEq, Inhabited

/-- Whether a node is a leaf: it stands for a terminal and has no
children. -/
def ParseNode.isLeaf (n : ParseNode) : Bool := n.children.isEmpty && n.label.isTerminal

/-- A parse tree. -/
structure ParseTree where
  /-- The arena of nodes. -/
  nodes : Array ParseNode := #[]
  /-- The place of the root, if the tree has one. -/
  root : Option Nat := none
  deriving DecidableEq, Inhabited

/-- Why an operation on a tree fails. -/
inductive TreeFault where
  /-- A place lies outside the arena. -/
  | outOfRange
  /-- The node to dissolve has no parent. -/
  | spliceRoot
  /-- The node to dissolve is not among the children of its parent. -/
  | notAmongSiblings (index : Nat)
  /-- The node to cut off is not among the children of its parent. -/
  | notAChild
  /-- A node occurs more than once where it can be drawn only once. -/
  | drawnAgain (index : Nat)
  /-- The links lead from a node back to it. -/
  | cyclic
  deriving DecidableEq, Repr

/-- The message of a fault. -/
def TreeFault.message : TreeFault → String
  | outOfRange => "list index out of range"
  | spliceRoot => "Cannot splice the root of a parse tree"
  | notAmongSiblings index => toString index ++ " is not in list"
  | notAChild => "list.remove(x): x not in list"
  | drawnAgain index => toString index
  | cyclic => "the links of the parse tree contain a cycle"

/-- A tree after an edit, and why the edit stopped, if it did. -/
structure Edited where
  /-- The tree as the edit left it. -/
  tree : ParseTree
  /-- The fault that stopped the edit. -/
  fault : Option TreeFault := none
  deriving DecidableEq

namespace ParseTree

/-- The tree without nodes. -/
def empty : ParseTree := {}

/-- The number of nodes in the arena. -/
def size (t : ParseTree) : Nat := t.nodes.size

/-- The node at a place. -/
def node (t : ParseTree) (i : Nat) : Except TreeFault ParseNode :=
  match t.nodes[i]? with
  | some n => .ok n
  | none => .error .outOfRange

/-- The tree with one node changed; a place outside the arena changes
nothing. -/
def update (t : ParseTree) (i : Nat) (f : ParseNode → ParseNode) : ParseTree :=
  { t with nodes := t.nodes.modify i f }

/-- The tree with a further node, and the place of that node. -/
def addNode (t : ParseTree) (label : Symbol) (token : Option Token) : ParseTree × Nat :=
  ({ t with nodes := t.nodes.push { label, token } }, t.nodes.size)

/-- The tree with a node made the last child of another one. -/
def link (t : ParseTree) (parent child : Nat) : ParseTree :=
  (t.update child fun n => { n with parent := some parent }).update parent fun n =>
    { n with children := n.children ++ [child] }

/-- The tree with another root. -/
def setRoot (t : ParseTree) (root : Option Nat) : ParseTree := { t with root }

/-- A node becomes the last child of another one. -/
def attach (t : ParseTree) (parent child : Nat) : Edited :=
  if child < t.size then
    if parent < t.size then ⟨t.link parent child, none⟩
    else ⟨t.update child fun n => { n with parent := some parent }, some .outOfRange⟩
  else ⟨t, some .outOfRange⟩

/-- A node gets another label. -/
def relabel (t : ParseTree) (i : Nat) (label : Symbol) : Edited :=
  if i < t.size then ⟨t.update i fun n => { n with label }, none⟩ else ⟨t, some .outOfRange⟩

/-- A node is cut off from its parent, together with what is below it. A
root that has no parent is taken from the tree. -/
def detach (t : ParseTree) (i : Nat) : Edited :=
  match t.nodes[i]? with
  | none => ⟨t, some .outOfRange⟩
  | some n =>
    match n.parent with
    | none => ⟨if t.root = some i then t.setRoot none else t, none⟩
    | some p =>
      match t.nodes[p]? with
      | none => ⟨t, some .outOfRange⟩
      | some above =>
        if i ∈ above.children then
          ⟨(t.update p fun m => { m with children := m.children.erase i }).update i fun m =>
            { m with parent := none }, none⟩
        else ⟨t, some .notAChild⟩

/-- A list with the first occurrence of a place replaced by other places. -/
def replaceFirst (i : Nat) (others : List Nat) : List Nat → List Nat
  | [] => []
  | j :: rest => if j = i then others ++ rest else j :: replaceFirst i others rest

/-- The tree where the given nodes have a node as their parent. -/
def adopt (t : ParseTree) (parent : Nat) (children : List Nat) : ParseTree :=
  children.foldl (fun t c => t.update c fun n => { n with parent := some parent }) t

/-- A node is dissolved: its children take its place among the children of
its parent. -/
def splice (t : ParseTree) (i : Nat) : Edited :=
  match t.nodes[i]? with
  | none => ⟨t, some .outOfRange⟩
  | some n =>
    match n.parent with
    | none => ⟨t, some .spliceRoot⟩
    | some p =>
      match t.nodes[p]? with
      | none => ⟨t, some .outOfRange⟩
      | some above =>
        if i ∈ above.children then
          let raised := t.update p fun m =>
            { m with children := replaceFirst i n.children m.children }
          ⟨(raised.adopt p n.children).update i fun m =>
            { m with children := [], parent := none }, none⟩
        else ⟨t, some (.notAmongSiblings i)⟩

/-- The label of a node. -/
def label (t : ParseTree) (i : Nat) : Except TreeFault Symbol :=
  (t.node i).map ParseNode.label

/-- The token of a node. -/
def token (t : ParseTree) (i : Nat) : Except TreeFault (Option Token) :=
  (t.node i).map ParseNode.token

/-- The children of a node. -/
def children (t : ParseTree) (i : Nat) : Except TreeFault (List Nat) :=
  (t.node i).map ParseNode.children

/-- The parent of a node. -/
def parent (t : ParseTree) (i : Nat) : Except TreeFault (Option Nat) :=
  (t.node i).map ParseNode.parent

/-- Whether the node at a place is a leaf. -/
def isLeaf (t : ParseTree) (i : Nat) : Except TreeFault Bool :=
  (t.node i).map ParseNode.isLeaf

end ParseTree

end PredictiveParsing
