import PredictiveParsing.Grammar
import PredictiveParsing.Stabilize

/-!
# Useless symbols

A variable is productive when it derives a string of declared terminals. A
symbol is accessible when it occurs in a string derived from the start
symbol. Both sets are found by repeating a step over all rules. A grammar is
freed from the variables that are not productive first, and from the
symbols that are not accessible then; the rules that mention a removed
symbol go with it.
-/

namespace PredictiveParsing.Grammar

/-- Whether all symbols of a body belong to a set. -/
def within (s : SymbolSet) (body : Body) : Bool := body.all fun a => decide (a ∈ s)

/-- The declared terminals, the empty string and the given variables. -/
def producing (g : Grammar) (known : SymbolSet) : SymbolSet :=
  (g.terminals ∪ known).insert .epsilon

/-- The given variables together with those that have an alternative over
declared terminals, the empty string and the given variables. -/
def productiveStep (g : Grammar) (known : SymbolSet) : SymbolSet :=
  known ∪ SymbolSet.ofList
    ((g.rules.entries.filter fun entry => entry.2.any (within (g.producing known))).map Prod.fst)

/-- The productive variables. -/
def productive (g : Grammar) : SymbolSet :=
  stabilize g.productiveStep (g.rules.entries.length + 1) ∅

/-- The given symbols together with those in alternatives of given ones. -/
def accessibleStep (g : Grammar) (known : SymbolSet) : SymbolSet :=
  known ∪ SymbolSet.ofList
    ((g.rules.entries.filter fun entry => decide (entry.1 ∈ known)).flatMap fun entry =>
      entry.2.flatten)

/-- The accessible symbols. -/
def accessible (g : Grammar) : SymbolSet :=
  stabilize g.accessibleStep (g.bodySymbols + 1) (SymbolSet.singleton g.start)

/-- The alternatives that are made of given symbols, if there are any. -/
def keptBodies (symbols : SymbolSet) (bodies : List Body) : Option (List Body) :=
  match bodies.filter (within symbols) with
  | [] => none
  | kept => some kept

/-- The rule table with the given keys and the alternatives that are made of
given symbols. -/
def restrictRules (g : Grammar) (keys symbols : SymbolSet) : RuleTable :=
  g.rules.select fun a bodies => if a ∈ keys then keptBodies symbols bodies else none

/-- The display order without the variables that are not kept. -/
def restrictOrder (g : Grammar) (kept : SymbolSet) : Option (List Symbol) :=
  g.order.map fun order => order.filter fun a => decide (a ∈ kept)

/-- The grammar of the productive variables. It is refused if the start
symbol is not productive. -/
def removeUnproductive (g : Grammar) : Except GrammarFault Grammar :=
  let kept := g.productive
  if g.start ∈ kept then
    Components.check {
      vars := kept
      terminals := g.terminals
      rules := g.restrictRules kept (g.producing kept)
      start := g.start
      order := g.restrictOrder kept }
  else .error (.startUnproductive g.start)

/-- The grammar of the accessible symbols. -/
def removeInaccessible (g : Grammar) : Except GrammarFault Grammar :=
  let kept := g.accessible
  Components.check {
    vars := g.vars ∩ kept
    terminals := g.terminals ∩ kept
    rules := g.restrictRules kept kept
    start := g.start
    order := g.restrictOrder (g.vars ∩ kept) }

/-- The grammar without useless symbols. -/
def removeUseless (g : Grammar) : Except GrammarFault Grammar := do
  let h ← g.removeUnproductive
  h.removeInaccessible

end PredictiveParsing.Grammar
