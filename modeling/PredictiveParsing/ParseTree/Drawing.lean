import PredictiveParsing.ParseTree.Walk
import PredictiveParsing.Text.Escape

/-!
# Drawings of parse trees

A tree is drawn as indented text, as the description of a graph, and as a
bracketed tree for typesetting. A node shows the value of its token if it
has one and values are wanted, and its label otherwise.
-/

namespace PredictiveParsing

/-- What a drawing shows for a node. -/
def ParseNode.caption (showValues : Bool) (n : ParseNode) : String :=
  match n.token with
  | none => n.label.text
  | some token =>
    if showValues && token.value != .null then token.value.display else n.label.text

namespace ParseTree

/-- The lines of the nodes on a stack of places with their depths. -/
def outline (t : ParseTree) (showValues : Bool) :
    (limit : Nat) → List (Nat × Nat) → Except TreeFault (List String)
  | _, [] => .ok []
  | 0, _ :: _ => .error .cyclic
  | limit + 1, (i, depth) :: waiting =>
    match t.nodes[i]? with
    | none => .error .outOfRange
    | some n =>
      (outline t showValues limit (n.children.map (fun c => (c, depth + 1)) ++ waiting)).map
        ((Text.spaces (2 * depth) ++ n.caption showValues) :: ·)

/-- A tree as text: a line for each node in pre-order, indented by two
spaces for each step from the root. -/
def drawText (t : ParseTree) (showValues : Bool) : Except TreeFault String :=
  match t.root with
  | none => .ok ""
  | some r => (t.outline showValues (t.visitLimit + 1) [(r, 0)]).map Text.lines

/-- The first line of a graph description. -/
def graphHead (title : String) : String := "digraph \"" ++ Text.escapeDot title ++ "\" \x7b"

/-- The description of a graph that says that there is no tree. -/
def drawNoGraph (title : String) : String :=
  Text.lines [graphHead title,
    "  empty [label=\"" ++ Text.escapeDot "Parse tree is empty" ++ "\", shape=box, color=red];",
    "\x7d"]

/-- The statement of a node: leaves are boxes and other nodes ellipses. -/
def nodeStatement (showValues : Bool) (i : Nat) (n : ParseNode) : String :=
  let look :=
    if n.isLeaf then
      "shape=box, style=filled, fillcolor=\"#e3f2fd\", fontname=\"Courier New\"];"
    else "shape=ellipse, style=filled, fillcolor=\"#e8f5e8\"];"
  "  node" ++ toString i ++ " [label=\"" ++ Text.escapeDot (n.caption showValues) ++ "\", " ++ look

/-- The statement of an edge. -/
def edgeStatement (i child : Nat) : String :=
  "  node" ++ toString i ++ " -> node" ++ toString child ++ ";"

/-- The statements of a node and of the edges to its children. -/
def nodeStatements (t : ParseTree) (showValues : Bool) (i : Nat) :
    Except TreeFault (List String) :=
  (t.node i).map fun n => nodeStatement showValues i n :: n.children.map (edgeStatement i)

/-- The description of a tree as a graph. Nodes are named by their places,
so that a node keeps its name when the tree is edited. -/
def drawGraph (t : ParseTree) (showValues : Bool) (title : String) : Except TreeFault String :=
  match t.root with
  | none => .ok (drawNoGraph title)
  | some _ => do
    let places ← t.walk none
    let statements ← places.mapM (t.nodeStatements showValues)
    pure <| Text.lines <|
      [graphHead title, "  rankdir=TB;", "  node [fontname=\"Arial\", fontsize=12];",
        "  edge [color=\"#333333\"];"] ++ statements.flatten ++ ["\x7d"]

/-- The drawings of nodes that wait for the drawings of their parents. -/
abbrev Drawn := List (Nat × String)

/-- The drawing of a node taken from those that wait. -/
def Drawn.take (drawn : Drawn) (i : Nat) : Except TreeFault (String × Drawn) :=
  match drawn.find? fun entry => entry.1 == i with
  | none => .error (.drawnAgain i)
  | some entry => .ok (entry.2, drawn.filter fun other => other.1 != i)

/-- The drawings of several nodes taken in turn. -/
def Drawn.takeAll (drawn : Drawn) : List Nat → Except TreeFault (List String × Drawn)
  | [] => .ok ([], drawn)
  | i :: rest => do
    let (first, left) ← drawn.take i
    let (others, remaining) ← Drawn.takeAll left rest
    pure (first :: others, remaining)

/-- A bracketed node: its caption in a group, and its children. -/
def bracket (caption : String) (children : List String) : String :=
  "[\x7b" ++ Text.escapeTypeset caption ++ "\x7d" ++
    (if children.isEmpty then "" else " " ++ Text.join " " children) ++ "]"

/-- The drawing of a node joined to those that wait, in exchange for those
of its children. -/
def drawNode (t : ParseTree) (showValues : Bool) (drawn : Drawn) (i : Nat) :
    Except TreeFault Drawn := do
  let n ← t.node i
  let (children, remaining) ← drawn.takeAll n.children
  pure ((i, bracket (n.caption showValues) children) ::
    remaining.filter fun other => other.1 != i)

/-- A tree for typesetting. In the reverse of the pre-order every node comes
after its children. -/
def drawTypeset (t : ParseTree) (showValues : Bool) : Except TreeFault String :=
  match t.root with
  | none => .ok ""
  | some r => do
    let places ← t.walk none
    let drawn ← places.reverse.foldlM (t.drawNode showValues) []
    let (tree, _) ← Drawn.take drawn r
    pure ("\\begin\x7bforest\x7d\n" ++ tree ++ "\n\\end\x7bforest\x7d")

end ParseTree

end PredictiveParsing
