import PredictiveParsing.Proofs.LeftCorner
import PredictiveParsing.Proofs.Lookahead.Follow

/-!
# Where the lookahead sets are exact

FIRST sets see only the leading symbol of an alternative and FOLLOW sets only
the symbol next to an occurrence. Nothing is lost by this where no
alternative begins with a variable that can vanish, and where a variable that
can vanish right after another one ends its body. Then every string that a
variable derives starts with a member of its FIRST set, and what comes after
a variable in a derivation from the start symbol starts with a member of its
FOLLOW set.
-/

namespace PredictiveParsing.Grammar

/-- A symbol that derives the empty string. -/
def Nullable (g : Grammar) (x : Symbol) : Prop := Generates g.rulesOf [x] []

/-- The grammars whose sets lose nothing by looking at one symbol. -/
structure ExactLookahead (g : Grammar) : Prop where
  /-- The start symbol stands in no body. -/
  start_apart : ¬g.Occurs g.start
  /-- No alternative other than the empty string begins with a variable that
  derives the empty string. -/
  leading : ∀ a, ∀ body ∈ g.rulesOf a, body ≠ epsilonBody →
    ∀ x ∈ g.vars, body.head? = some x → ¬g.Nullable x
  /-- A variable that derives the empty string and stands right after a
  variable is the last symbol of the body. -/
  trailing : ∀ a left x y rest, left ++ x :: y :: rest ∈ g.rulesOf a →
    x ∈ g.vars → y ∈ g.vars → g.Nullable y → rest = []

/-- A variable in progress inside others: it stands in a body of the next
variable, with the unread rest of that body behind it, and so on out to the
start symbol. -/
inductive Nested (g : Grammar) : Symbol → List Body → Prop
  /-- The start symbol is inside nothing. -/
  | start : Nested g g.start []
  /-- A symbol inside an alternative of a variable that is in progress. -/
  | inside {b x : Symbol} {read unread : Body} {levels : List Body}
      (mem : read ++ x :: unread ∈ g.rulesOf b) (outer : Nested g b levels) :
      Nested g x (unread :: levels)

variable {g : Grammar}

/-- A variable of a closed grammar that yields nothing is nullable. -/
theorem Closed.nullable (hg : g.Closed) {x : Symbol} (hx : x ∈ g.vars)
    (h : Yields g.rulesOf [x] []) : g.Nullable x :=
  (generates_nonterminal (hg.vars_nonterminal x hx)).mpr h

/-- A symbol of a body that yields nothing is the empty string or a nullable
variable. -/
theorem Closed.eq_epsilon_or_nullable (hg : g.Closed) {a x : Symbol} {body : Body}
    (hbody : body ∈ g.rulesOf a) (hx : x ∈ body) (h : Yields g.rulesOf [x] []) :
    x = .epsilon ∨ x ∈ g.vars ∧ g.Nullable x := by
  cases x with
  | epsilon => exact .inl rfl
  | terminal t => cases h
  | nonterminal n =>
    have hv := hg.body_declared a body hbody _ hx rfl
    exact .inr ⟨hv, hg.nullable hv h⟩

/-- Where leading symbols stay, a symbol that yields nothing has the empty
alternative. -/
theorem HeadsStay.hasEpsilonRule_of_yields_nil (hs : g.HeadsStay) {form w : List Symbol}
    (h : Yields g.rulesOf form w) (hw : w = []) :
    ∀ x ∈ form, x = .epsilon ∨ g.hasEpsilonRule x = true := by
  induction h with
  | nil => exact fun x hx => absurd hx List.not_mem_nil
  | epsilon _ ih =>
    intro x hx
    rcases List.mem_cons.mp hx with e | hx
    · exact .inl e
    · exact ih hw x hx
  | terminal => cases hw
  | @expand n body rest u v mem _ _ ihu ihv =>
    obtain ⟨hu, hv⟩ := List.append_eq_nil_iff.mp hw
    have hbody : body = epsilonBody := by
      by_contra hne
      cases hb : body with
      | nil => exact (g.valid.proper _ body mem).ne_nil hb
      | cons y rest =>
        have hy : y ∈ body := by
          rw [hb]
          exact List.mem_cons_self
        rcases ihu hu y hy with e | hvanishes
        · exact epsilon_notMem mem hne (e ▸ hy)
        · exact hs _ y ⟨body, mem, hne, by rw [hb, List.head?_cons]⟩
            (hasEpsilonRule_iff.mp hvanishes)
    intro x hx
    rcases List.mem_cons.mp hx with e | hx
    · rw [e]
      exact .inr (hasEpsilonRule_iff.mpr (hbody ▸ mem))
    · exact ihv hv x hx

/-- Where leading symbols stay, none of them yields nothing. -/
theorem HeadsStay.not_yields_nil (hs : g.HeadsStay) {a x : Symbol} (h : Heads g.rulesOf a x) :
    ¬Yields g.rulesOf [x] [] := by
  intro hx
  rcases hs.hasEpsilonRule_of_yields_nil hx rfl x List.mem_cons_self with rfl | hv
  · obtain ⟨body, hbody, hne, hhead⟩ := h
    exact epsilon_notMem hbody hne (List.mem_of_head? hhead)
  · exact hs a x h (hasEpsilonRule_iff.mp hv)

/-- The empty string comes from the empty alternative only. -/
theorem HeadsStay.eq_epsilonBody (hs : g.HeadsStay) {a : Symbol} {body : Body}
    (hbody : body ∈ g.rulesOf a) (h : Yields g.rulesOf body []) : body = epsilonBody := by
  by_contra hne
  cases hb : body with
  | nil => exact (g.valid.proper a body hbody).ne_nil hb
  | cons x rest =>
    rw [hb] at h
    obtain ⟨u, v, huv, hu, -⟩ := h.uncons
    rw [(List.append_eq_nil_iff.mp huv.symm).1] at hu
    exact hs.not_yields_nil ⟨body, hbody, hne, by rw [hb, List.head?_cons]⟩ hu

/-- No leading symbol can vanish where the lookahead sets are exact. -/
theorem ExactLookahead.headsStay (he : g.ExactLookahead) (hg : g.Closed) : g.HeadsStay := by
  intro a x ⟨body, hbody, hne, hx⟩ hv
  have hvar := mem_vars_of_mem_rulesOf hv
  exact he.leading a body hbody hne x hvar hx
    (hg.nullable hvar ((hg.yields_iff hvar).mpr ⟨_, hv, yields_epsilonBody.mpr rfl⟩))

/-- How a symbol is read when derivations are followed from the left: it
yields nothing, or it leads to the first terminal. -/
def Reading (g : Grammar) (a : Symbol) : List Symbol → Prop
  | [] => Yields g.rulesOf [a] []
  | t :: _ => ∃ n, g.Leads n a t

/-- A form of symbols that are read as nothing yields nothing. -/
theorem yields_of_spells_reading_nil {form : List Symbol} (h : Spells g.Reading form []) :
    Yields g.rulesOf form [] := by
  induction form with
  | nil => exact .nil
  | cons a rest ih =>
    obtain ⟨u, v, huv, hu, hv⟩ := h
    obtain ⟨hu0, hv0⟩ := List.append_eq_nil_iff.mp huv.symm
    rw [hu0] at hu
    rw [hv0] at hv
    exact Yields.append (x := [a]) hu (ih hv)

/-- A body that is read as a string with a first terminal leads to it by its
first symbol. -/
theorem HeadsStay.leads_of_spells (hs : g.HeadsStay) {a t : Symbol} {body z : List Symbol}
    (hbody : body ∈ g.rulesOf a) (h : Spells g.Reading body (t :: z)) :
    ∃ x n, body.head? = some x ∧ g.Leads n x t := by
  have hproper := g.valid.proper a body hbody
  cases hb : body with
  | nil => exact absurd hb hproper.ne_nil
  | cons x rest =>
    rw [hb] at h
    obtain ⟨u, v, huv, hu, hv⟩ := h
    cases u with
    | cons s u =>
      have hs : s = t := (List.cons.inj huv).1.symm
      obtain ⟨n, hn⟩ := hu
      rw [hs] at hn
      exact ⟨x, n, rfl, hn⟩
    | nil =>
      by_cases hne : body = epsilonBody
      · -- the empty string stands alone, so that nothing is left to start with
        rw [hb] at hne
        have hr : rest = [] := (List.cons.inj hne).2
        rw [hr] at hv
        have hv0 : v = [] := hv
        rw [hv0] at huv
        cases huv
      · exact absurd hu (hs.not_yields_nil ⟨body, hbody, hne, by rw [hb, List.head?_cons]⟩)

/-- The reading is closed under the rules. -/
theorem HeadsStay.spells_reading (hs : g.HeadsStay) (hg : g.Closed) {form w : List Symbol}
    (h : Yields g.rulesOf form w) : Spells g.Reading form w := by
  have hterminal : ∀ t, .terminal t ∉ g.vars :=
    fun t => hg.notMem_vars_of_isTerminal (x := .terminal t) rfl
  have hrule : ∀ n, ∀ body ∈ g.rulesOf (.nonterminal n), ∀ w, Spells g.Reading body w →
      g.Reading (.nonterminal n) w := by
    intro n body hbody w hw
    cases w with
    | nil => exact yields_nonterminal.mpr ⟨body, hbody, yields_of_spells_reading_nil hw⟩
    | cons t z =>
      obtain ⟨x, k, hhead, hk⟩ := hs.leads_of_spells hbody hw
      exact ⟨k + 1, .step hbody hhead hk⟩
  exact h.spells (.epsilon .nil) (fun t => ⟨0, .self (hterminal t)⟩) hrule

/-- What a body derives starts with a terminal to which its first symbol
leads. -/
theorem HeadsStay.exists_leads (hs : g.HeadsStay) (hg : g.Closed) {a t : Symbol}
    {body z : List Symbol} (hbody : body ∈ g.rulesOf a) (h : Yields g.rulesOf body (t :: z)) :
    ∃ x, body.head? = some x ∧ t ∈ g.firstTable.lookup x := by
  obtain ⟨x, n, hhead, hn⟩ := hs.leads_of_spells hbody (hs.spells_reading hg h)
  exact ⟨x, hhead, hg.mem_lookup_of_leads hn fun hk =>
    hg.body_declared a body hbody x (List.mem_of_head? hhead) hk⟩

/-- The FIRST set of a nullable variable has the empty string. -/
theorem ExactLookahead.epsilon_mem_lookup (he : g.ExactLookahead) (hg : g.Closed) {y : Symbol}
    (hy : y ∈ g.vars) (h : g.Nullable y) : .epsilon ∈ g.firstTable.lookup y := by
  have hyields := (generates_nonterminal (hg.vars_nonterminal y hy)).mp h
  obtain ⟨body, hbody, hempty⟩ := (hg.yields_iff hy).mp hyields
  rw [(he.headsStay hg).eq_epsilonBody hbody hempty] at hbody
  exact hg.epsilon_mem_lookup_of_rule hbody

/-- What comes after a variable in progress starts with a member of its
FOLLOW set. -/
theorem ExactLookahead.mem_follow (he : g.ExactLookahead) (hg : g.Closed) {x : Symbol}
    {levels : List Body} (hn : g.Nested x levels) (hx : x ∈ g.vars) {t : Symbol} {z : List Symbol}
    (h : Yields g.rulesOf levels.flatten (t :: z)) : t ∈ g.followTable.members x := by
  induction hn with
  | start => cases h
  | @inside b x read unread levels mem outer ih =>
    have hne : x ≠ g.start := by
      intro e
      refine he.start_apart ⟨b, _, mem, ?_⟩
      rw [← e]
      exact List.mem_append_right _ List.mem_cons_self
    have hb := mem_vars_of_mem_rulesOf mem
    rw [List.flatten_cons] at h
    cases unread with
    | nil => exact hg.mem_follow_of_last mem hx hne (ih hb h)
    | cons y rest =>
      have hy : y ∈ read ++ x :: y :: rest :=
        List.mem_append_right _ (List.mem_cons_of_mem _ List.mem_cons_self)
      rw [List.cons_append] at h
      have hterminal : t.isTerminal = true := h.isWord t List.mem_cons_self
      have hempty : t ≠ .epsilon := by
        intro e
        rw [e] at hterminal
        cases hterminal
      obtain ⟨u, v, huv, hu, hv⟩ := h.uncons
      cases u with
      | cons s u =>
        have hs : s = t := (List.cons.inj huv).1.symm
        have hreading := spells_singleton.mp ((he.headsStay hg).spells_reading hg hu)
        obtain ⟨n, hn⟩ := hreading
        rw [hs] at hn
        have hlookup := hg.mem_lookup_of_leads hn fun hk =>
          hg.body_declared b _ mem y hy hk
        exact hg.mem_follow_of_next mem hx hne hlookup hempty
      | nil =>
        rcases hg.eq_epsilon_or_nullable mem hy hu with e | ⟨hvar, hnull⟩
        · -- the empty string has no neighbour
          have halone := (g.valid.proper b _ mem).epsilon_alone (e ▸ hy)
          have hlength := congrArg List.length halone
          rw [List.length_append, List.length_cons, List.length_cons, epsilonBody,
            List.length_singleton] at hlength
          omega
        · have hrest : rest = [] := he.trailing b read x y rest mem hx hvar hnull
          rw [hrest, List.nil_append] at hv
          rw [List.nil_append] at huv
          rw [← huv] at hv
          exact hg.mem_follow_of_vanishing mem hx hne (he.epsilon_mem_lookup hg hvar hnull)
            (ih hb hv)

/-- Whether no alternative of a body's symbols can vanish next to a variable
unless it ends the body. -/
def vanishesLast (g : Grammar) : Body → Bool
  | x :: y :: z :: rest =>
    !(decide (x ∈ g.vars) && g.hasEpsilonRule y) && vanishesLast g (y :: z :: rest)
  | _ => true

/-- Whether a body meets the conditions of exact lookahead sets, where only
the empty alternative makes a symbol vanish. -/
def looksAhead (g : Grammar) (body : Body) : Bool :=
  decide (g.start ∉ body) &&
    (decide (body = epsilonBody) || body.head?.all fun x => !g.hasEpsilonRule x) &&
    g.vanishesLast body

/-- A body that passes has no vanishing variable next to a variable but at
its end. -/
theorem eq_nil_of_vanishesLast {left rest : Body} {x y : Symbol}
    (h : g.vanishesLast (left ++ x :: y :: rest) = true) (hx : x ∈ g.vars)
    (hy : g.hasEpsilonRule y = true) : rest = [] := by
  induction left with
  | nil =>
    cases rest with
    | nil => rfl
    | cons z rest =>
      rw [List.nil_append, vanishesLast, hy, decide_eq_true hx, Bool.and_eq_true] at h
      cases h.1
  | cons b left ih =>
    refine ih ?_
    cases left with
    | nil =>
      rw [List.cons_append, List.nil_append, vanishesLast, Bool.and_eq_true] at h
      exact h.2
    | cons c left =>
      cases left with
      | nil =>
        rw [List.cons_append, List.cons_append, List.nil_append, vanishesLast,
          Bool.and_eq_true] at h
        exact h.2
      | cons d left =>
        rw [List.cons_append, List.cons_append, List.cons_append, vanishesLast,
          Bool.and_eq_true] at h
        exact h.2

/-- A closed grammar whose bodies all pass has exact lookahead sets. -/
theorem Closed.exactLookahead (hg : g.Closed)
    (h : (g.rules.entries.all fun entry => entry.2.all g.looksAhead) = true) :
    g.ExactLookahead := by
  have passes : ∀ a, ∀ body ∈ g.rulesOf a, (g.start ∉ body ∧ (body = epsilonBody ∨
      (body.head?.all fun x => !g.hasEpsilonRule x) = true)) ∧ g.vanishesLast body = true := by
    intro a body hbody
    have hpass := Components.forall_mem_rulesOf_of_all h a body hbody
    rw [looksAhead, Bool.and_eq_true, Bool.and_eq_true, Bool.or_eq_true, decide_eq_true_eq,
      decide_eq_true_eq] at hpass
    exact hpass
  have hstay : g.HeadsStay := by
    intro a x ⟨body, hbody, hne, hx⟩ hv
    rcases (passes a body hbody).1.2 with e | hall
    · exact absurd e hne
    · rw [hx, Option.all_some, hasEpsilonRule_iff.mpr hv] at hall
      cases hall
  refine ⟨fun ⟨a, body, hbody, hs⟩ => (passes a body hbody).1.1 hs, ?_, ?_⟩
  · intro a body hbody hne x hx hhead hn
    exact hstay.not_yields_nil ⟨body, hbody, hne, hhead⟩
      ((generates_nonterminal (hg.vars_nonterminal x hx)).mp hn)
  · intro a left x y rest hbody hx hy hn
    have hyields := (generates_nonterminal (hg.vars_nonterminal y hy)).mp hn
    rcases hstay.hasEpsilonRule_of_yields_nil hyields rfl y List.mem_cons_self with e | hv
    · have hkind := hg.vars_nonterminal y hy
      rw [e] at hkind
      cases hkind
    · exact eq_nil_of_vanishesLast (passes a _ hbody).2 hx hv

end PredictiveParsing.Grammar
