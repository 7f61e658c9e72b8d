import PredictiveParsing.ParseTree

/-!
# Walks through parse trees

A walk visits the nodes that can be reached from a start in pre-order. It
keeps the places that are still to be visited on a stack, where the
children of a visited node come before everything that waited already. The
number of visits is limited by the number of paths that an arena without
cycles can have, so that only a cycle exhausts the limit.
-/

namespace PredictiveParsing.ParseTree

/-- The largest number of children of a node. -/
def arity (t : ParseTree) : Nat := t.nodes.foldl (fun most n => max most n.children.length) 0

/-- A number of visits that suffices for every walk without cycles: a path
has at most as many nodes as the arena, and at each node as many ways to go
on as the node has children. -/
def visitLimit (t : ParseTree) : Nat := t.size + Nat.pow (t.arity + 1) t.size

/-- The nodes visited from a stack of places. -/
def visit (t : ParseTree) : (limit : Nat) → List Nat → Except TreeFault (List Nat)
  | _, [] => .ok []
  | 0, _ :: _ => .error .cyclic
  | limit + 1, i :: waiting =>
    match t.nodes[i]? with
    | none => .error .outOfRange
    | some n => (visit t limit (n.children ++ waiting)).map (i :: ·)

/-- Where a walk starts: at the given place, or else at the root. -/
def walkStart (t : ParseTree) (start : Option Nat) : List Nat := (start.or t.root).toList

/-- The places that can be reached from a start, in pre-order. Without a
start and without a root there are none. -/
def walk (t : ParseTree) (start : Option Nat) : Except TreeFault (List Nat) :=
  t.visit (t.visitLimit + 1) (t.walkStart start)

/-- The reachable nodes with a label. -/
def find (t : ParseTree) (label : Symbol) (start : Option Nat) : Except TreeFault (List Nat) := do
  let places ← t.walk start
  places.filterM fun i => do pure (decide ((← t.label i) = label))

/-- The tokens of the reachable leaves, left to right. -/
def leaves (t : ParseTree) (start : Option Nat) : Except TreeFault (List (Option Token)) := do
  let places ← t.walk start
  let leafPlaces ← places.filterM t.isLeaf
  leafPlaces.mapM t.token

/-- The number of nodes that can be reached from the root. -/
def reachableCount (t : ParseTree) : Except TreeFault Nat := (t.walk none).map List.length

end PredictiveParsing.ParseTree
