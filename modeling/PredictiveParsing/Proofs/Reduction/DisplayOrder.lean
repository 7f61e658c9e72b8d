import PredictiveParsing.Proofs.Reduction.PrefixRemoval
import PredictiveParsing.Proofs.Reduction.RecursionRemoval

/-!
# The display order through the reduction

A removal of symbols keeps what is left in the order in which it was
displayed. A rewriting shows a new variable behind the one that it is made
from, whether there is a display order, into which the new variable is put as
many places further as its name is longer, or the order of the rule table
decides, at the end of which it comes. Neither moves an old variable. What
one rewriting does to the display is put together along the rows of a pass
and along the passes.
-/

namespace PredictiveParsing

/-- The name made for a new variable is longer than the one it is made from. -/
theorem length_lt_freshName (base : String) (taken : List String) :
    base.length < (freshName base taken).length := by
  obtain ⟨k, -, heq, -, -⟩ := primeUntilFree_eq_primed taken taken.length (base ++ "'")
  have hone : "'".length = 1 := rfl
  rw [freshName, heq, length_primed, String.length_append, hone]
  omega

/-- An insertion moves nothing that was there. -/
theorem sublist_insertAt (place : Nat) (a : Symbol) (l : List Symbol) :
    l.Sublist (insertAt place a l) := by
  have h : (l.take place ++ l.drop place).Sublist (l.take place ++ a :: l.drop place) :=
    (List.Sublist.refl _).append (List.sublist_cons_self a _)
  rwa [List.take_append_drop] at h

/-- A new variable with a longer name is placed behind the variable that it is
made from, also where the place is the end of the list. -/
theorem behind_placeFresh {base new : Symbol} {order : List Symbol} (hbase : base ∈ order)
    (hlength : base.name.length < new.name.length) :
    [base, new].Sublist (placeFresh base new order) := by
  have hindex := List.idxOf_lt_length_iff.mpr hbase
  have htake : base ∈
      order.take (min (order.idxOf base + (new.name.length - base.name.length)) order.length) := by
    rw [List.mem_take_iff_idxOf_lt hbase]
    omega
  exact (List.singleton_sublist.mpr htake).append (List.singleton_sublist.mpr List.mem_cons_self)

namespace Text

variable {α : Type} {name : α → String} {p : α → Bool}

/-- Of a sorted list, what is left of an insertion. -/
theorem filter_insertBy {a : α} {l : List α} (h : l.Pairwise fun b c => ¬name c < name b) :
    (insertBy name a l).filter p = if p a then insertBy name a (l.filter p) else l.filter p := by
  induction l with
  | nil =>
    rw [insertBy, List.filter_cons, List.filter_nil]
    split <;> rfl
  | cons b rest ih =>
    obtain ⟨hb, hrest⟩ := List.pairwise_cons.mp h
    rw [insertBy]
    by_cases hlt : name b < name a
    · rw [if_pos hlt, List.filter_cons, ih hrest, List.filter_cons]
      cases hpb : p b with
      | false => rfl
      | true =>
        simp only [if_true]
        rw [insertBy, if_pos hlt]
        split <;> rfl
    · rw [if_neg hlt, List.filter_cons]
      -- nothing that is left precedes the new one
      have hfirst : insertBy name a ((b :: rest).filter p) = a :: (b :: rest).filter p := by
        cases hl : (b :: rest).filter p with
        | nil => rfl
        | cons c others =>
          have hc : c ∈ (b :: rest).filter p := hl ▸ List.mem_cons_self
          have hle : ¬name c < name a := by
            rcases List.mem_cons.mp (List.mem_filter.mp hc).1 with e | hc
            · exact e ▸ hlt
            · exact fun hca => String.not_lt.mpr (String.le_trans (String.not_lt.mp hlt)
                (String.not_lt.mp (hb c hc))) hca
          rw [insertBy, if_neg hle]
      rw [hfirst]

/-- What is left of a sorted list is the sorted list of what is left. -/
theorem filter_sortBy (l : List α) : (sortBy name l).filter p = sortBy name (l.filter p) := by
  induction l with
  | nil => rfl
  | cons a rest ih =>
    rw [sortBy, filter_insertBy (sortBy_ordered name rest), ih, List.filter_cons]
    split <;> rfl

end Text

namespace Components

/-- The order in which the variables of components are displayed. -/
def displayed (c : Components) : List Symbol :=
  match c.order with
  | some order => order
  | none =>
    c.rules.keys.filter (fun a => decide (a ∈ c.vars)) ++
      Text.sortBy Symbol.name (c.vars.members.filter fun a => !c.rules.contains a)

variable {c next last : Components} {a base new : Symbol} {bodies : List Body}

/-- A variable that has its entry in the rule table and its place in the
display. -/
structure Placed (c : Components) (a : Symbol) : Prop where
  /-- Only variables have entries. -/
  keys : ∀ b ∈ c.rules.keys, b ∈ c.vars
  /-- The variable has one. -/
  entry : a ∈ c.rules.keys
  /-- The variable is displayed. -/
  shown : a ∈ c.displayed

/-- Other alternatives for a variable with an entry do not show. -/
theorem displayed_setRules (h : a ∈ c.rules.keys) :
    (c.setRules a bodies).displayed = c.displayed := by
  have hkeys : (c.setRules a bodies).rules.keys = c.rules.keys := by
    rw [setRules, SymbolTable.keys_set, if_pos h]
  unfold displayed
  rw [hkeys]
  simp only [SymbolTable.contains_eq_of_keys hkeys]
  rfl

/-- Without a display order a new variable is displayed behind the others that
have alternatives. -/
theorem displayed_addVariable (horder : c.order = none) (hkeys : ∀ b ∈ c.rules.keys, b ∈ c.vars)
    (hnew : new ∉ c.vars) :
    (c.addVariable base new bodies).displayed = c.rules.keys ++
      new :: Text.sortBy Symbol.name (c.vars.members.filter fun b => !c.rules.contains b) := by
  have hset : (c.addVariable base new bodies).rules.keys = c.rules.keys ++ [new] := by
    rw [addVariable, SymbolTable.keys_set, if_neg fun hmem => hnew (hkeys new hmem)]
  have hall : (c.rules.keys ++ [new]).filter (fun b => decide (b ∈ c.vars.insert new)) =
      c.rules.keys ++ [new] := by
    refine List.filter_eq_self.mpr fun b hb => decide_eq_true (SymbolSet.mem_insert.mpr ?_)
    rcases List.mem_append.mp hb with hb | hb
    · exact .inr (hkeys b hb)
    · exact .inl (List.mem_singleton.mp hb)
  have hcontains : ∀ b, (c.addVariable base new bodies).rules.contains b =
      (c.rules.contains b || decide (b = new)) := by
    intro b
    rw [Bool.eq_iff_iff, Bool.or_eq_true, SymbolTable.contains_iff, SymbolTable.contains_iff, hset,
      List.mem_append, List.mem_singleton, decide_eq_true_eq]
  have htail : (c.vars.insert new).members.filter
      (fun b => !(c.addVariable base new bodies).rules.contains b) =
      c.vars.members.filter fun b => !c.rules.contains b := by
    have hout : (!(c.addVariable base new bodies).rules.contains new) = false := by
      rw [hcontains, decide_eq_true rfl, Bool.or_true]
      rfl
    refine (SymbolSet.filter_insertSorted hout _).trans (List.filter_congr fun b hb => ?_)
    have hne : b ≠ new := fun e => hnew (e ▸ SymbolSet.mem_members.mp hb)
    rw [hcontains, decide_eq_false hne, Bool.or_false]
  have hnone : (c.addVariable base new bodies).order = none := by
    rw [addVariable, horder]
    rfl
  unfold displayed
  rw [hnone]
  simp only [hset]
  rw [show (c.addVariable base new bodies).vars = c.vars.insert new from rfl, hall, htail,
    List.append_assoc, List.singleton_append]

namespace Placed

/-- Without a display order the entries of the table are displayed first. -/
theorem displayed_eq (h : c.Placed a) (horder : c.order = none) : c.displayed = c.rules.keys ++
    Text.sortBy Symbol.name (c.vars.members.filter fun b => !c.rules.contains b) := by
  have hall : c.rules.keys.filter (fun b => decide (b ∈ c.vars)) = c.rules.keys :=
    List.filter_eq_self.mpr fun b hb => decide_eq_true (h.keys b hb)
  unfold displayed
  rw [horder]
  simp only [hall]

/-- A new variable moves none that is displayed. -/
theorem sublist_addVariable (h : c.Placed a) (hnew : new ∉ c.vars) :
    c.displayed.Sublist (c.addVariable base new bodies).displayed := by
  cases horder : c.order with
  | none =>
    rw [h.displayed_eq horder, displayed_addVariable horder h.keys hnew]
    exact (List.Sublist.refl _).append (List.sublist_cons_self new _)
  | some order =>
    unfold displayed addVariable
    simp only [horder, Option.map_some]
    exact sublist_insertAt _ _ _

/-- A new variable with a longer name is displayed behind the one that it is
made from. -/
theorem behind_addVariable (h : c.Placed a) (hnew : new ∉ c.vars)
    (hlength : a.name.length < new.name.length) :
    [a, new].Sublist (c.addVariable a new bodies).displayed := by
  cases horder : c.order with
  | none =>
    rw [displayed_addVariable horder h.keys hnew]
    exact (List.singleton_sublist.mpr h.entry).append
      (List.singleton_sublist.mpr List.mem_cons_self)
  | some order =>
    have hshown := h.shown
    unfold displayed at hshown
    rw [horder] at hshown
    unfold displayed addVariable
    simp only [horder, Option.map_some]
    exact behind_placeFresh hshown hlength

/-- The variable keeps its entry and its place where its alternatives are
replaced. -/
theorem setRules (h : c.Placed a) : (c.setRules a bodies).Placed a := by
  have hkeys : (c.setRules a bodies).rules.keys = c.rules.keys := by
    rw [Components.setRules, SymbolTable.keys_set, if_pos h.entry]
  refine ⟨?_, ?_, ?_⟩
  · rw [hkeys]
    exact h.keys
  · rw [hkeys]
    exact h.entry
  · rw [displayed_setRules h.entry]
    exact h.shown

/-- It keeps them beside a new variable. -/
theorem addVariable (h : c.Placed a) (hnew : new ∉ c.vars) :
    (c.addVariable base new bodies).Placed a := by
  have hkeys : (c.addVariable base new bodies).rules.keys = c.rules.keys ++ [new] := by
    rw [Components.addVariable, SymbolTable.keys_set, if_neg fun hmem => hnew (h.keys new hmem)]
  refine ⟨?_, ?_, (h.sublist_addVariable hnew).mem h.shown⟩
  · intro b hb
    rw [hkeys, List.mem_append, List.mem_singleton] at hb
    exact mem_vars_addVariable.mpr (hb.symm.imp_right (h.keys b))
  · rw [hkeys]
    exact List.mem_append_left _ h.entry

end Placed

/-- What rewritings do to the display: they move nothing and show the variables
that they make behind those that they are made from. A list gives the
variables that are made, each behind the one that it is made from. -/
structure Extends (c next : Components) (made : List (Symbol × Symbol)) : Prop where
  /-- What was displayed before is displayed in the same order. -/
  sublist : c.displayed.Sublist next.displayed
  /-- A new variable is displayed behind the one that it is made from. -/
  behind : ∀ pair ∈ made, [pair.1, pair.2].Sublist next.displayed
  /-- The variables are the old ones and the new ones. -/
  mem_vars : ∀ a, a ∈ next.vars ↔ a ∈ c.vars ∨ a ∈ made.map Prod.snd
  /-- The new ones were no variables. -/
  fresh : ∀ a ∈ made.map Prod.snd, a ∉ c.vars
  /-- No variable is made twice. -/
  once : (made.map Prod.snd).Nodup
  /-- There is a display order exactly if there was one. -/
  isSome_order : next.order.isSome = c.order.isSome

namespace Extends

variable {made more : List (Symbol × Symbol)}

/-- Nothing is made by no rewriting. -/
theorem refl (c : Components) : Extends c c [] where
  sublist := List.Sublist.refl _
  behind := fun _ h => absurd h List.not_mem_nil
  mem_vars := fun a => by rw [List.map_nil, or_iff_left List.not_mem_nil]
  fresh := fun _ h => absurd h List.not_mem_nil
  once := List.nodup_nil
  isSome_order := rfl

/-- Rewritings follow each other. -/
theorem trans (h : Extends c next made) (h' : Extends next last more) :
    Extends c last (made ++ more) where
  sublist := h.sublist.trans h'.sublist
  behind := by
    intro pair hpair
    rcases List.mem_append.mp hpair with hpair | hpair
    · exact (h.behind pair hpair).trans h'.sublist
    · exact h'.behind pair hpair
  mem_vars := fun a => by
    rw [h'.mem_vars, h.mem_vars, List.map_append, List.mem_append, or_assoc]
  fresh := by
    intro a ha
    rw [List.map_append, List.mem_append] at ha
    rcases ha with ha | ha
    · exact h.fresh a ha
    · exact fun hold => h'.fresh a ha ((h.mem_vars a).mpr (.inl hold))
  once := by
    rw [List.map_append, List.nodup_append]
    refine ⟨h.once, h'.once, fun a ha b hb e => ?_⟩
    exact h'.fresh b hb ((h.mem_vars b).mpr (.inr (e ▸ ha)))
  isSome_order := h'.isSome_order.trans h.isSome_order

/-- Replacing the alternatives of a variable with an entry makes none. -/
theorem setRules (h : a ∈ c.rules.keys) : Extends c (c.setRules a bodies) [] :=
  { Extends.refl c with
    sublist := by rw [displayed_setRules h]
    behind := fun _ hpair => absurd hpair List.not_mem_nil
    isSome_order := rfl }

/-- A new variable with a longer name is made from the one beside which it is
put. -/
theorem addVariable (h : c.Placed a) (hnew : new ∉ c.vars)
    (hlength : a.name.length < new.name.length) :
    Extends c (c.addVariable a new bodies) [(a, new)] where
  sublist := h.sublist_addVariable hnew
  behind := List.forall_mem_singleton.mpr (h.behind_addVariable hnew hlength)
  mem_vars := fun b => by
    rw [mem_vars_addVariable, List.map_singleton, List.mem_singleton, or_comm]
  fresh := List.forall_mem_singleton.mpr hnew
  once := List.nodup_singleton _
  isSome_order := by
    rw [Components.addVariable]
    exact Option.isSome_map

end Extends

/-- The variables that a split makes, each behind the variable that is split. -/
def madeBySplit (c : Components) (a : Symbol) : List (Symbol × Symbol) :=
  [(a, .nonterminal (c.splitFirst a)), (a, .nonterminal (c.splitSecond a))]

/-- The variable that a factoring makes, behind the variable that is
factored. -/
def madeByFactoring (c : Components) (target : Symbol × Body) : List (Symbol × Symbol) :=
  [(target.1, .nonterminal (c.factorName target.1))]

/-- A split shows its two variables behind the one that is split. -/
theorem Placed.extends_splitRecursion (h : c.Placed a) :
    Extends c (c.splitRecursion a) (c.madeBySplit a) := by
  have hfirst : .nonterminal (c.splitFirst a) ∉ c.vars := c.splitFirst_notMem a
  have hset : Placed (c.setRules a [[.nonterminal (c.splitFirst a),
      .nonterminal (c.splitSecond a)]]) a := h.setRules
  have hsecond : .nonterminal (c.splitSecond a) ∉ (Components.addVariable
      (c.setRules a [[.nonterminal (c.splitFirst a), .nonterminal (c.splitSecond a)]]) a
      (.nonterminal (c.splitFirst a)) (baseBodies a (c.rulesOf a))).vars := by
    rw [mem_vars_addVariable]
    exact fun hm => hm.elim (fun e => c.splitSecond_ne a (Symbol.nonterminal.inj e))
      (c.splitSecond_notMem a)
  exact (Extends.setRules h.entry).trans <|
    (Extends.addVariable hset hfirst (length_lt_freshName _ _)).trans <|
      Extends.addVariable (hset.addVariable hfirst) hsecond (length_lt_freshName _ _)

/-- A factoring shows its variable behind the one that is factored. -/
theorem Placed.extends_factorOut {target : Symbol × Body} (h : c.Placed target.1) :
    Extends c (c.factorOut target) (c.madeByFactoring target) :=
  (Extends.setRules h.entry).trans <|
    Extends.addVariable h.setRules (c.factorName_notMem target.1) (length_lt_freshName _ _)

/-- A variable with alternatives that is displayed has its entry and place. -/
theorem Closed.placed (h : c.Closed) (hrules : c.rulesOf a ≠ []) (hshown : a ∈ c.displayed) :
    c.Placed a where
  keys := by
    intro b hb
    obtain ⟨bodies, hget⟩ := Option.isSome_iff_exists.mp (SymbolTable.contains_iff.mpr hb)
    exact h.key_declared b bodies hget
  entry := by
    obtain ⟨body, hbody⟩ := List.exists_mem_of_ne_nil _ hrules
    rw [← SymbolTable.contains_iff, SymbolTable.contains, get?_eq_some_of_mem_rulesOf hbody]
    rfl
  shown := hshown

end Components

section Passes

variable {α : Type}

/-- The variables that a row of rewritings makes, each behind the one that it
is made from. -/
def madeInRow (rewrite : Components → α → Components)
    (makes : Components → α → List (Symbol × Symbol)) : List α → Components → List (Symbol × Symbol)
  | [], _ => []
  | target :: rest, c => makes c target ++ madeInRow rewrite makes rest (rewrite c target)

/-- Passes of rewritings from a grammar to the one where nothing is left to be
rewritten, with the variables that they make, each behind the one that it is
made from. -/
inductive RewritePasses (targets : Grammar → List α) (rewrite : Components → α → Components)
    (makes : Components → α → List (Symbol × Symbol)) :
    Grammar → Grammar → List (Symbol × Symbol) → Prop
  /-- Nothing is left. -/
  | done {g : Grammar} (settled : targets g = []) : RewritePasses targets rewrite makes g g []
  /-- All that is there is rewritten, and further passes follow. -/
  | pass {g next h : Grammar} {made : List (Symbol × Symbol)} (unsettled : targets g ≠ [])
      (checked : ((targets g).foldl rewrite g.toComponents).check = .ok next)
      (later : RewritePasses targets rewrite makes next h made) :
      RewritePasses targets rewrite makes g h
        (madeInRow rewrite makes (targets g) g.toComponents ++ made)

/-- A repetition that makes a pass as long as something is to be rewritten, at most
a given number of them, makes such passes if it comes to an end. -/
theorem exists_rewritePasses {targets : Grammar → List α} {rewrite : Components → α → Components}
    {makes : Components → α → List (Symbol × Symbol)}
    {repeated : Nat → Grammar → Except GrammarFault Grammar} {limit : Nat} {g h : Grammar}
    (stops : ∀ g, repeated 0 g = .ok g)
    (rests : ∀ limit g, targets g = [] → repeated limit g = .ok g)
    (goesOn : ∀ limit g, targets g ≠ [] → repeated (limit + 1) g =
      ((targets g).foldl rewrite g.toComponents).check >>= repeated limit)
    (hh : repeated limit g = .ok h) (hdone : targets h = []) :
    ∃ made, RewritePasses targets rewrite makes g h made := by
  induction limit generalizing g with
  | zero =>
    rw [stops] at hh
    rw [← Except.ok.inj hh] at hdone ⊢
    exact ⟨[], .done hdone⟩
  | succ limit ih =>
    by_cases hr : targets g = []
    · rw [rests _ g hr] at hh
      rw [← Except.ok.inj hh]
      exact ⟨[], .done hr⟩
    · rw [goesOn limit g hr] at hh
      obtain ⟨next, hcheck, hrest⟩ := exists_ok_of_bind hh
      obtain ⟨made, hmade⟩ := ih hrest
      exact ⟨_, .pass hr hcheck hmade⟩

/-- What a pass does to the display is done by all passes. -/
theorem RewritePasses.extends {targets : Grammar → List α} {rewrite : Components → α → Components}
    {makes : Components → α → List (Symbol × Symbol)} {g h : Grammar}
    {made : List (Symbol × Symbol)}
    (pass : ∀ g : Grammar, g.Closed → ((targets g).foldl rewrite g.toComponents).Closed ∧
      g.toComponents.Extends ((targets g).foldl rewrite g.toComponents)
        (madeInRow rewrite makes (targets g) g.toComponents))
    (hp : RewritePasses targets rewrite makes g h made) (hg : g.Closed) :
    g.toComponents.Extends h.toComponents made := by
  induction hp with
  | done => exact .refl _
  | pass _ checked _ ih =>
    have hnext := Components.check_eq_ok checked
    obtain ⟨hclosed, hextends⟩ := pass _ hg
    rw [← hnext] at hclosed hextends
    exact hextends.trans (ih hclosed.grammar)

end Passes

/-- What a row of splits does to the display. -/
theorem Splitting.extends {g : Grammar} {todo : List Symbol} {c : Components}
    (h : Splitting g todo c) (hold : ∀ a ∈ todo, a ∈ g.leftRecursive) (hn : todo.Nodup)
    (hshown : ∀ a ∈ g.vars, a ∈ c.displayed) :
    c.Extends (todo.foldl Components.splitRecursion c)
      (madeInRow Components.splitRecursion Components.madeBySplit todo c) := by
  induction todo generalizing c with
  | nil => exact .refl c
  | cons a rest ih =>
    obtain ⟨hnotMem, hnrest⟩ := List.nodup_cons.mp hn
    obtain ⟨hvar, body, hbody, -⟩ := Grammar.mem_leftRecursive.mp (hold a List.mem_cons_self)
    have hrest : ∀ b ∈ rest, b ∈ g.leftRecursive := fun b hb => hold b (List.mem_cons_of_mem _ hb)
    rw [← h.pending a List.mem_cons_self] at hbody
    have hplaced := h.closed.placed (List.ne_nil_of_mem hbody) (hshown a hvar)
    have hstep := hplaced.extends_splitRecursion
    have hnext := h.step hvar (fun b hb => Grammar.mem_vars_of_mem_leftRecursive b (hrest b hb))
      hnotMem
    exact hstep.trans (ih hnext hrest hnrest fun b hb => hstep.sublist.mem (hshown b hb))

/-- What a row of factorings does to the display. -/
theorem FactoringPass.extends {g : Grammar} {todo : List (Symbol × Body)} {c : Components}
    (h : FactoringPass g todo c) (hold : ∀ t ∈ todo, t ∈ g.factorable)
    (hn : (todo.map Prod.fst).Nodup) (hshown : ∀ a ∈ g.vars, a ∈ c.displayed) :
    c.Extends (todo.foldl Components.factorOut c)
      (madeInRow Components.factorOut Components.madeByFactoring todo c) := by
  induction todo generalizing c with
  | nil => exact .refl c
  | cons target rest ih =>
    rw [List.map_cons] at hn
    obtain ⟨hnotMem, hnrest⟩ := List.nodup_cons.mp hn
    obtain ⟨hvar, -, body, hbody, -⟩ := Grammar.of_mem_factorable (hold target List.mem_cons_self)
    rw [← h.pending target List.mem_cons_self] at hbody
    have hplaced := h.closed.placed (List.ne_nil_of_mem hbody) (hshown _ hvar)
    have hstep := hplaced.extends_factorOut
    exact hstep.trans (ih (h.step hold hnotMem) (fun t ht => hold t (List.mem_cons_of_mem _ ht))
      hnrest fun b hb => hstep.sublist.mem (hshown b hb))

namespace Grammar

variable {g h : Grammar} {made : List (Symbol × Symbol)}

/-- Passes of splitting, with the variables that they make. -/
def SplitPasses : Grammar → Grammar → List (Symbol × Symbol) → Prop :=
  RewritePasses leftRecursive Components.splitRecursion Components.madeBySplit

/-- Passes of factoring, with the variables that they make. -/
def FactorPasses : Grammar → Grammar → List (Symbol × Symbol) → Prop :=
  RewritePasses factorable Components.factorOut Components.madeByFactoring

/-- All that is displayed is displayed in the order of the components. -/
theorem displayed_toComponents (g : Grammar) : g.toComponents.displayed = g.displayOrder := rfl

/-- A pass of splitting keeps a grammar closed and extends its display. -/
theorem Closed.extends_split (hg : g.Closed) :
    (g.leftRecursive.foldl Components.splitRecursion g.toComponents).Closed ∧
      g.toComponents.Extends (g.leftRecursive.foldl Components.splitRecursion g.toComponents)
        (madeInRow Components.splitRecursion Components.madeBySplit g.leftRecursive
          g.toComponents) :=
  ⟨hg.splitAll.closed, hg.splitting.extends (fun _ h => h) g.nodup_leftRecursive
    fun _ ha => mem_displayOrder.mpr ha⟩

/-- Before the pass, everything that is found is to be factored. -/
theorem Closed.factoringPass (hg : g.Closed) : FactoringPass g g.factorable g.toComponents :=
  ⟨hg.components, fun _ ha => ha, fun _ _ => rfl⟩

/-- A pass of factoring keeps a grammar closed and extends its display. -/
theorem Closed.extends_factor (hg : g.Closed) :
    (g.factorable.foldl Components.factorOut g.toComponents).Closed ∧
      g.toComponents.Extends (g.factorable.foldl Components.factorOut g.toComponents)
        (madeInRow Components.factorOut Components.madeByFactoring g.factorable g.toComponents) :=
  ⟨(hg.factoringPass.finish (fun _ h => h) g.nodup_factorable).1,
    hg.factoringPass.extends (fun _ h => h) g.nodup_factorable fun _ ha => mem_displayOrder.mpr ha⟩

/-- What a stage does to the display of a grammar. A list gives the variables
that the stage makes, each behind the one that it is made from. -/
structure KeepsDisplay (g h : Grammar) (made : List (Symbol × Symbol)) : Prop where
  /-- There is a display order exactly if there was one. -/
  isSome_order : h.order.isSome = g.order.isSome
  /-- A display order lists the variables, each once. -/
  perm_order : ∀ order, h.order = some order → order.Perm h.vars.members
  /-- The old variables that are left are displayed as they were. -/
  restricted : h.displayOrder.filter (fun a => decide (a ∈ g.vars)) =
    g.displayOrder.filter fun a => decide (a ∈ h.vars)
  /-- Every new variable is made by the stage. -/
  generated : ∀ a ∈ h.vars, a ∉ g.vars → a ∈ made.map Prod.snd
  /-- What the stage makes are new variables. -/
  fresh : ∀ a ∈ made.map Prod.snd, a ∈ h.vars ∧ a ∉ g.vars
  /-- No variable is made twice. -/
  once : (made.map Prod.snd).Nodup
  /-- A variable that is made is displayed behind the one that it is made
  from. -/
  behind : ∀ base new, (base, new) ∈ made → [base, new].Sublist h.displayOrder

/-- A display order of a grammar lists its variables, each once. -/
theorem perm_of_order_eq_some {order : List Symbol} (ho : h.order = some order) :
    order.Perm h.vars.members := by
  obtain ⟨hn, hm⟩ := Components.listsVariables_iff.mp (h.valid.order_lists order ho)
  exact (List.perm_ext_iff_of_nodup hn h.vars.nodup_members).mpr hm

/-- A stage of rewritings keeps the display. -/
theorem KeepsDisplay.of_extends (he : g.toComponents.Extends h.toComponents made) :
    KeepsDisplay g h made where
  isSome_order := he.isSome_order
  perm_order := fun _ => perm_of_order_eq_some
  restricted := by
    have hall : ∀ a ∈ g.displayOrder, a ∈ h.vars := fun a ha =>
      (he.mem_vars a).mpr (.inl (mem_displayOrder.mp ha))
    have hself : g.displayOrder.filter (fun a => decide (a ∈ g.vars)) = g.displayOrder :=
      List.filter_eq_self.mpr fun a ha => decide_eq_true (mem_displayOrder.mp ha)
    have hsub := he.sublist.filter fun a => decide (a ∈ g.vars)
    rw [displayed_toComponents, displayed_toComponents, hself] at hsub
    -- both list the old variables, each once, and the one is part of the other
    have hperm : g.displayOrder.Perm (h.displayOrder.filter fun a => decide (a ∈ g.vars)) := by
      refine (List.perm_ext_iff_of_nodup g.nodup_displayOrder
        (h.nodup_displayOrder.filter _)).mpr fun a => ⟨fun ha => hsub.mem ha, fun ha => ?_⟩
      exact mem_displayOrder.mpr (of_decide_eq_true (List.mem_filter.mp ha).2)
    rw [← hsub.eq_of_length hperm.length_eq]
    exact (List.filter_eq_self.mpr fun a ha => decide_eq_true (hall a ha)).symm
  generated := fun a ha hn => ((he.mem_vars a).mp ha).resolve_left hn
  fresh := fun a ha => ⟨(he.mem_vars a).mpr (.inr ha), he.fresh a ha⟩
  once := he.once
  behind := fun _ _ hpair => he.behind _ hpair

/-- What is left of a grammar when symbols are removed. -/
structure Restricts (g h : Grammar) : Prop where
  /-- No variable is added. -/
  vars : h.vars ⊆ g.vars
  /-- A display order is what is left of it. -/
  order : h.order = g.restrictOrder h.vars
  /-- The keys of the rule table are what is left of them. -/
  keys : h.rules.keys = g.rules.keys.filter fun a => decide (a ∈ h.vars)

/-- What is left is displayed as it was. -/
theorem Restricts.displayOrder_eq (hr : Restricts g h) :
    h.displayOrder = g.displayOrder.filter fun a => decide (a ∈ h.vars) := by
  have horder := hr.order
  unfold restrictOrder at horder
  unfold displayOrder
  cases ho : g.order with
  | some order =>
    rw [ho] at horder
    rw [horder]
    rfl
  | none =>
    rw [ho] at horder
    rw [horder]
    have hcontains : ∀ a ∈ h.vars, h.rules.contains a = g.rules.contains a := by
      intro a ha
      rw [Bool.eq_iff_iff, SymbolTable.contains_iff, SymbolTable.contains_iff, hr.keys,
        List.mem_filter, decide_eq_true_eq, and_iff_left ha]
    simp only [Option.map_none]
    rw [List.filter_append, Text.filter_sortBy, List.filter_filter, List.filter_filter, hr.keys,
      List.filter_filter]
    congr 1
    · refine List.filter_congr fun a _ => ?_
      by_cases ha : a ∈ h.vars
      · simp [ha, hr.vars a ha]
      · simp [ha]
    · rw [← SymbolSet.filter_members_of_subset hr.vars, List.filter_filter]
      refine congrArg _ (List.filter_congr fun a _ => ?_)
      by_cases ha : a ∈ h.vars
      · simp [ha, hcontains a ha]
      · simp [ha]

/-- A removal of symbols keeps the display. -/
theorem Restricts.keepsDisplay (hr : Restricts g h) : KeepsDisplay g h [] where
  isSome_order := by
    rw [hr.order, restrictOrder]
    exact Option.isSome_map
  perm_order := fun _ => perm_of_order_eq_some
  restricted := by
    rw [← hr.displayOrder_eq]
    exact List.filter_eq_self.mpr fun a ha => decide_eq_true (hr.vars a (mem_displayOrder.mp ha))
  generated := fun a ha hn => absurd (hr.vars a ha) hn
  fresh := fun _ ha => absurd ha List.not_mem_nil
  once := List.nodup_nil
  behind := fun _ _ ha => absurd ha List.not_mem_nil

/-- Some alternatives are kept exactly if one of them is made of the given
symbols. -/
theorem isSome_keptBodies {symbols : SymbolSet} {bodies : List Body} :
    (keptBodies symbols bodies).isSome = true ↔ ∃ body ∈ bodies, within symbols body = true := by
  have hnil : (∃ body ∈ bodies, within symbols body = true) ↔
      bodies.filter (within symbols) ≠ [] := by
    rw [ne_eq, List.filter_eq_nil_iff]
    simp only [not_forall, not_not, exists_prop]
  rw [hnil]
  unfold keptBodies
  split
  · next h => rw [h]; simp
  · next h => simpa using h

/-- The keys that are left, where just the given variables keep an
alternative. -/
theorem keys_restrictRules {keys symbols kept : SymbolSet}
    (h : ∀ a bodies, g.rules.get? a = some bodies →
      (a ∈ kept ↔ a ∈ keys ∧ ∃ body ∈ bodies, within symbols body = true)) :
    (g.restrictRules keys symbols).keys = g.rules.keys.filter fun a => decide (a ∈ kept) := by
  rw [restrictRules, SymbolTable.keys_select, SymbolTable.keys, List.filter_map]
  refine congrArg _ (List.filter_congr fun entry hentry => ?_)
  have hkept := h entry.1 entry.2 (SymbolTable.mem_entries_iff.mp hentry)
  rw [Bool.eq_iff_iff, Function.comp_apply, decide_eq_true_eq, hkept, ← isSome_keptBodies]
  split
  · next hk => exact (and_iff_right hk).symm
  · next hk => exact ⟨fun e => (by cases e), fun e => absurd e.1 hk⟩

/-- The productive part of a grammar restricts it. -/
theorem Closed.restricts_removeUnproductive (hg : g.Closed) (hh : g.removeUnproductive = .ok h) :
    Restricts g h := by
  obtain ⟨hvars, -, -, -⟩ := removeUnproductive_eq_ok hh
  have hsub : g.productive ⊆ g.vars := fun a ha => (hg.productiveSoFar a ha).1
  have hc : h.order = g.restrictOrder g.productive ∧
      h.rules = g.restrictRules g.productive (g.producing g.productive) := by
    unfold Grammar.removeUnproductive at hh
    dsimp only at hh
    split at hh
    · rw [Components.check_eq_ok hh]
      exact ⟨rfl, rfl⟩
    · cases hh
  refine ⟨hvars ▸ hsub, hvars ▸ hc.1, ?_⟩
  rw [hc.2, hvars]
  refine keys_restrictRules fun a bodies hget => ⟨fun ha => ⟨ha, ?_⟩, fun ha => ha.1⟩
  -- what is found productive has an alternative over what is found
  obtain ⟨n, rfl⟩ := hg.exists_name (hsub a ha)
  obtain ⟨w, hw⟩ := (hg.productiveSoFar _ ha).2
  obtain ⟨body, hbody, -⟩ := yields_nonterminal.mp hw
  obtain ⟨-, hmem, hall⟩ := mem_knownProductions.mp hbody
  rw [rulesOf, hget] at hmem
  exact ⟨body, hmem, within_iff.mpr hall⟩

/-- The accessible part of a grammar restricts it. -/
theorem restricts_removeInaccessible (hh : g.removeInaccessible = .ok h) : Restricts g h := by
  obtain ⟨hvars, -, -, -⟩ := removeInaccessible_eq_ok hh
  have hc : h.order = g.restrictOrder (g.vars ∩ g.accessible) ∧
      h.rules = g.restrictRules g.accessible g.accessible := by
    unfold removeInaccessible at hh
    rw [Components.check_eq_ok hh]
    exact ⟨rfl, rfl⟩
  refine ⟨fun a ha => (SymbolSet.mem_inter.mp (hvars ▸ ha)).1, hvars ▸ hc.1, ?_⟩
  rw [hc.2, hvars]
  refine keys_restrictRules fun a bodies hget => ?_
  have hrules : g.rulesOf a = bodies := by rw [rulesOf, hget]; rfl
  rw [SymbolSet.mem_inter, and_iff_right (g.valid.key_mem a bodies hget)]
  refine ⟨fun ha => ⟨ha, ?_⟩, fun ha => ha.1⟩
  -- an accessible variable keeps all of its alternatives
  obtain ⟨body, hbody⟩ := List.exists_mem_of_ne_nil _ (g.valid.bodies_ne_nil a bodies hget)
  refine ⟨body, hbody, within_iff.mpr fun x hx => ?_⟩
  exact mem_accessible_of_mem_body ha (hrules.symm ▸ hbody) hx

/-- No stage of the reduction disturbs the display, whether the grammar gives a
display order or not. The result gives one exactly if the grammar does, and then
it lists the variables of the result, each once; the variables that were there
before and are left are displayed in the same order as before; and every new
variable is one of those that the passes of the stage make, and is displayed
behind the variable that it is made from. -/
theorem Closed.stages_keep_display (hg : g.Closed) :
    (∀ h, g.removeUnproductive = .ok h → KeepsDisplay g h []) ∧
    (∀ h, g.removeInaccessible = .ok h → KeepsDisplay g h []) ∧
    (∀ h, g.removeLeftRecursion = .ok h → ∃ made, SplitPasses g h made ∧ KeepsDisplay g h made) ∧
    ∀ h, g.leftFactor = .ok h → ∃ made, FactorPasses g h made ∧ KeepsDisplay g h made := by
  refine ⟨fun h hh => (hg.restricts_removeUnproductive hh).keepsDisplay,
    fun h hh => (restricts_removeInaccessible hh).keepsDisplay, fun h hh => ?_, fun h hh => ?_⟩
  · have hdone := hg.leftRecursive_eq_nil (hg.removeLeftRecursion_eq_ok_iff.mp hh)
    obtain ⟨made, hmade⟩ : ∃ made, SplitPasses g h made := exists_rewritePasses (fun _ => rfl)
      (fun limit _ hr => splitPasses_of_leftRecursive_eq_nil hr limit)
      (fun limit _ hr => splitPasses_succ hr limit) hh hdone
    exact ⟨made, hmade, .of_extends (hmade.extends (fun _ => Closed.extends_split) hg)⟩
  · obtain ⟨r, hr, hdone, -⟩ := hg.exists_leftFactor
    rw [hh] at hr
    rw [← Except.ok.inj hr] at hdone
    obtain ⟨made, hmade⟩ : ∃ made, FactorPasses g h made := exists_rewritePasses (fun _ => rfl)
      (fun limit _ hr => factorPasses_of_factorable_eq_nil hr limit)
      (fun limit _ hr => factorPasses_succ hr limit) hh hdone
    exact ⟨made, hmade, .of_extends (hmade.extends (fun _ => Closed.extends_factor) hg)⟩

/-- A grammar with a display order, with a name that has an apostrophe already
and alternatives that take two passes of factoring. -/
def primedNames : Grammar :=
  ⟨componentsOfNames ["S", "A", "A'", "B"] ["a", "b", "c", "d", "e"]
    [("S", [["A", "A'"], ["B"]]), ("A'", [["e"]]),
      ("A", [["A", "a"], ["a", "b", "c"], ["a", "b", "d"], ["a", "e"]])] "S"
    (some ["B", "A'", "A", "S"]), by decide +kernel⟩

/-- A variable that is not productive goes, and nothing else moves; both passes
of factoring make a variable, the second one from that of the first one. -/
theorem stages_keep_display_primedNames : primedNames.Closed ∧
    (∃ h, primedNames.removeUnproductive = .ok h ∧
      h.order = some [.nonterminal "A'", .nonterminal "A", .nonterminal "S"] ∧
      KeepsDisplay primedNames h []) ∧
    ∃ h made, primedNames.leftFactor = .ok h ∧ h.order = some [.nonterminal "B",
        .nonterminal "A'", .nonterminal "A", .nonterminal "S", .nonterminal "A''",
        .nonterminal "A'''"] ∧
      FactorPasses primedNames h made ∧ KeepsDisplay primedNames h made := by
  have hg : primedNames.Closed := closed_of_componentsOfNames rfl
  obtain ⟨unproductive, -, -, factor⟩ := Closed.stages_keep_display hg
  have hu : primedNames.removeUnproductive.toOption.map (·.order) =
      some (some [.nonterminal "A'", .nonterminal "A", .nonterminal "S"]) := by decide +kernel
  have hf : primedNames.leftFactor.toOption.map (·.order) = some (some [.nonterminal "B",
      .nonterminal "A'", .nonterminal "A", .nonterminal "S", .nonterminal "A''",
      .nonterminal "A'''"]) := by decide +kernel
  refine ⟨hg, ?_, ?_⟩
  · cases hok : primedNames.removeUnproductive with
    | error fault => rw [hok] at hu; cases hu
    | ok h =>
      rw [hok] at hu
      exact ⟨h, rfl, Option.some.inj hu, unproductive h hok⟩
  · cases hok : primedNames.leftFactor with
    | error fault => rw [hok] at hf; cases hf
    | ok h =>
      rw [hok] at hf
      obtain ⟨made, hpasses, hkeeps⟩ := factor h hok
      exact ⟨h, made, rfl, Option.some.inj hf, hpasses, hkeeps⟩

end Grammar

end PredictiveParsing
