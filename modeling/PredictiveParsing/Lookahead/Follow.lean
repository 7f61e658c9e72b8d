import PredictiveParsing.Lookahead.First

/-!
# FOLLOW sets

Where a variable occurs in a body, the FIRST set of the next symbol, less
the empty string, belongs to its FOLLOW set. Where it occurs last, or where
the FIRST set of the next symbol has the empty string, the FOLLOW set of the
variable that owns the body belongs to it too. Symbols further on do not
count. The start symbol has no FOLLOW set at all, and contributes none.
The sets are computed in passes over all occurrences until a pass changes
nothing.
-/

namespace PredictiveParsing

/-- The FOLLOW sets of variables; the start symbol has none. -/
abbrev FollowTable := SymbolTable (Option SymbolSet)

/-- An occurrence of a variable in a body. -/
structure Occurrence where
  /-- The variable to which the body belongs. -/
  owner : Symbol
  /-- The variable that occurs. -/
  subject : Symbol
  /-- The symbol right after it, unless it is the last one. -/
  next : Option Symbol
  deriving DecidableEq

namespace Occurrence

/-- The terminals that the next symbol contributes. -/
def successors (first : FirstTable) (o : Occurrence) : SymbolSet :=
  match o.next with
  | some b => (first.lookup b).erase .epsilon
  | none => ∅

/-- Whether the body can end after the occurrence: it is the last symbol, or
the next one has the empty string in its FIRST set. -/
def endsBody (first : FirstTable) (o : Occurrence) : Bool :=
  match o.next with
  | some b => decide (.epsilon ∈ first.lookup b)
  | none => true

end Occurrence

namespace FollowTable

/-- The FOLLOW set of a symbol, empty where there is none. -/
def members (t : FollowTable) (a : Symbol) : SymbolSet := ((t.get? a).join).getD ∅

/-- What an occurrence adds to the FOLLOW set of its variable. -/
def contribution (first : FirstTable) (t : FollowTable) (o : Occurrence) : SymbolSet :=
  o.successors first ∪ (if o.endsBody first then t.members o.owner else ∅)

/-- A table to which an occurrence has contributed. -/
def absorb (first : FirstTable) (t : FollowTable) (o : Occurrence) : FollowTable :=
  match t.get? o.subject with
  | some (some s) => t.set o.subject (some (s ∪ t.contribution first o))
  | _ => t

/-- The symbol that an occurrence misses in a table, if there is one: its
variable, or the owner of the body where the FOLLOW set of that counts. -/
def missing? (first : FirstTable) (t : FollowTable) (o : Occurrence) : Option Symbol :=
  match t.get? o.subject with
  | none => some o.subject
  | some none => none
  | some (some _) => if o.endsBody first && !t.contains o.owner then some o.owner else none

end FollowTable

namespace Grammar

/-- The occurrences of variables in a body that belongs to a symbol. -/
def occurrencesIn (g : Grammar) (owner : Symbol) : Body → List Occurrence
  | [] => []
  | x :: rest =>
    if x ∈ g.vars then ⟨owner, x, rest.head?⟩ :: occurrencesIn g owner rest
    else occurrencesIn g owner rest

/-- The occurrences of variables in all bodies, in the order of the rules. -/
def occurrences (g : Grammar) : List Occurrence :=
  g.displayOrder.flatMap fun a => (g.rulesOf a).flatMap (g.occurrencesIn a)

/-- One pass over all occurrences. -/
def followStep (g : Grammar) (first : FirstTable) (t : FollowTable) : FollowTable :=
  g.occurrences.foldl (FollowTable.absorb first) t

/-- One pass over all occurrences of a table that may lack variables. -/
def followPass (g : Grammar) (first : FirstTable) (t : FollowTable) :
    Except MissingEntry FollowTable :=
  match g.occurrences.findSome? (FollowTable.missing? first t) with
  | some a => .error ⟨a⟩
  | none => .ok (g.followStep first t)

/-- The table before the first pass. -/
def initialFollow (g : Grammar) : FollowTable :=
  SymbolTable.tabulate g.vars fun a => if a = g.start then none else some ∅

/-- The FOLLOW sets of a grammar. -/
def followTable (g : Grammar) : FollowTable :=
  stabilize (g.followStep g.firstTable) (g.analysisBound + 1) g.initialFollow

end Grammar

/-- The FIRST and FOLLOW sets of a grammar. -/
structure Lookahead where
  /-- The FIRST sets. -/
  first : FirstTable
  /-- The FOLLOW sets. -/
  follow : FollowTable
  deriving DecidableEq

namespace Lookahead

/-- The sets of a grammar. -/
def ofGrammar (g : Grammar) : Lookahead := ⟨g.firstTable, g.followTable⟩

/-- The FIRST set of any symbol. -/
def firstOf (l : Lookahead) (a : Symbol) : SymbolSet := l.first.lookup a

/-- The FOLLOW set of a symbol: nothing for the start symbol, and the empty
set for a symbol that is no variable. -/
def followOf (l : Lookahead) (a : Symbol) : Option SymbolSet := (l.follow.get? a).getD (some ∅)

end Lookahead

end PredictiveParsing
