import PredictiveParsing.Proofs.Lookahead.Completeness
import PredictiveParsing.Proofs.Lookahead.Followers

/-!
# Lookahead sets and derived forms

The textbook reads FIRST and FOLLOW sets off derived forms, which may hold
variables that derive no string at all: a terminal is in the FIRST set of a
variable if a form that begins with it is derived from the variable, and in
its FOLLOW set if it stands right behind the variable in a form that is derived
from the start symbol. The computed sets look at one symbol. Every terminal of
a FIRST set is one of the textbook; the sets are those of the textbook where no
body of two or more symbols begins with a variable that can vanish, and, for
FOLLOW sets, where a variable that can vanish ends its body if it stands right
behind another one.
-/

namespace PredictiveParsing.Grammar

/-- No alternative of two or more symbols begins with a variable that derives
the empty string. -/
def LongBodiesFirm (g : Grammar) : Prop :=
  ∀ a, ∀ body ∈ g.rulesOf a, 2 ≤ body.length → ∀ x ∈ g.vars, body.head? = some x →
    ¬g.Nullable x

/-- The conditions under which it is enough to look at the next symbol for
what follows a variable. -/
structure FollowsLocally (g : Grammar) : Prop where
  /-- Every variable stands in a form that is derived from the start symbol. -/
  accessible : ∀ a ∈ g.vars, ∃ left right, Derives g.rulesOf [g.start] (left ++ a :: right)
  /-- The start symbol stands in no body. -/
  start_apart : ¬g.Occurs g.start
  /-- A variable that derives the empty string and stands right after a
  variable is the last symbol of the body. -/
  trailing : ∀ a left x y rest, left ++ x :: y :: rest ∈ g.rulesOf a →
    x ∈ g.vars → y ∈ g.vars → g.Nullable y → rest = []

/-- A form leads to a symbol: what stands before some symbol of the form
yields nothing, and that symbol leads to it. -/
def FormLeads (g : Grammar) (form : List Symbol) (t : Symbol) : Prop :=
  ∃ front x rest n, form = front ++ x :: rest ∧ Yields g.rulesOf front [] ∧ g.Leads n x t

variable {g : Grammar} {a t : Symbol} {n : Nat}

/-- A nullable symbol is one from which the empty form is derived. -/
theorem nullable_iff : g.Nullable a ↔ Derives g.rulesOf [a] [] :=
  and_iff_left fun _ hx => absurd hx List.not_mem_nil

/-- A form that begins with a terminal to which a symbol leads is derived from
the symbol. -/
theorem Leads.exists_derives (hg : g.Closed) (h : g.Leads n a t) (ht : t.isTerminal = true) :
    ∃ rest, Derives g.rulesOf [a] (t :: rest) := by
  induction h with
  | self => exact ⟨[], .refl⟩
  | @step n a x t body mem head tail ih =>
    obtain ⟨rest, hrest⟩ := ih ht
    obtain ⟨after, rfl⟩ := List.head?_eq_some_iff.mp head
    have hne : x :: after ≠ epsilonBody := by
      intro e
      -- the empty string leads to itself only
      obtain ⟨rfl, -⟩ := List.cons.inj e
      cases tail with
      | self => cases ht
      | step mem => exact hg.ne_epsilon_of_mem_vars (mem_vars_of_mem_rulesOf mem) rfl
    obtain ⟨m, rfl⟩ := hg.exists_name (mem_vars_of_mem_rulesOf mem)
    have first := Rewrites.apply [] [] mem
    rw [spelled_of_mem_rulesOf mem hne, List.append_nil] at first
    have later := hrest.around [] after
    exact ⟨rest ++ after, .head first later⟩

/-- A form that begins with a terminal leads to it. -/
theorem Closed.formLeads_cons (hg : g.Closed) (ht : t.isTerminal = true) (rest : List Symbol) :
    g.FormLeads (t :: rest) t :=
  ⟨[], t, rest, 0, rfl, .nil, .self (hg.notMem_vars_of_isTerminal ht)⟩

/-- A symbol alone leads where the form of it does. -/
theorem FormLeads.exists_leads (h : g.FormLeads [a] t) : ∃ n, g.Leads n a t := by
  obtain ⟨front, x, rest, n, hform, -, hn⟩ := h
  obtain ⟨rfl, he⟩ | ⟨_, -, he⟩ := List.cons_eq_append_iff.mp hform
  · exact ⟨n, (List.cons.inj he).1 ▸ hn⟩
  · cases (List.append_eq_nil_iff.mp he.symm).2

/-- A symbol in the part of a long body that vanishes would be at its
beginning. -/
theorem LongBodiesFirm.eq_nil (hf : g.LongBodiesFirm) (hg : g.Closed) {b x : Symbol}
    {front rest : Body} (mem : front ++ x :: rest ∈ g.rulesOf b)
    (hfront : Yields g.rulesOf front []) : front = [] := by
  cases front with
  | nil => rfl
  | cons y front =>
    obtain ⟨u, v, huv, hu, -⟩ := hfront.uncons
    rw [(List.append_eq_nil_iff.mp huv.symm).1] at hu
    rcases hg.eq_epsilon_or_nullable mem List.mem_cons_self hu with rfl | ⟨hy, hnull⟩
    · -- the empty string has no neighbour
      have halone := (g.valid.proper b _ mem).epsilon_alone List.mem_cons_self
      have hrest := (List.cons.inj halone).2
      cases (List.append_eq_nil_iff.mp hrest).2
    · refine absurd hnull (hf b _ mem ?_ y hy rfl)
      rw [List.cons_append, List.length_cons, List.length_append, List.length_cons]
      omega

/-- A form leads where it leads after a step. -/
theorem LongBodiesFirm.formLeads_of_rewrites (hf : g.LongBodiesFirm) (hg : g.Closed)
    {form next : List Symbol} (h : Rewrites g.rulesOf form next) (ht : g.FormLeads next t) :
    g.FormLeads form t := by
  obtain ⟨front, x, rest, k, hnext, hfront, hk⟩ := ht
  cases h with
  | @apply left right m body mem =>
    -- the symbol stands before the replaced variable, in its body, or behind it
    rcases cases_of_append_eq_append_cons hnext with ⟨after, rfl, -⟩ | ⟨inner, rfl, hinner⟩
    · refine ⟨front, x, after ++ .nonterminal m :: right, k, ?_, hfront, hk⟩
      rw [List.append_assoc, List.cons_append]
    obtain ⟨u, v, huv, hleft, hvanished⟩ := hfront.split
    obtain ⟨rfl, rfl⟩ := List.append_eq_nil_iff.mp huv.symm
    rcases cases_of_append_eq_append_cons hinner with ⟨after, hbody, -⟩ | ⟨last, rfl, rfl⟩
    · have hx : x ∈ Body.spelled body := hbody ▸ List.mem_append_right _ List.mem_cons_self
      have hne : body ≠ epsilonBody := by
        rintro rfl
        exact absurd hx List.not_mem_nil
      rw [spelled_of_mem_rulesOf mem hne] at hbody
      rw [hbody] at mem
      have hnil := hf.eq_nil hg mem hvanished
      rw [hnil] at mem
      exact ⟨left, .nonterminal m, right, k + 1, rfl, hleft, .step mem rfl hk⟩
    · obtain ⟨u, v, huv, hown, hlast⟩ := hvanished.split
      obtain ⟨rfl, rfl⟩ := List.append_eq_nil_iff.mp huv.symm
      refine ⟨left ++ .nonterminal m :: last, x, rest, k, ?_, ?_, hk⟩
      · rw [List.append_assoc, List.cons_append]
      · exact hleft.append (.expand mem (yields_spelled.mp hown) hlast)

/-- A form leads to every terminal with which a form derived from it
begins. -/
theorem LongBodiesFirm.formLeads_of_derives (hf : g.LongBodiesFirm) (hg : g.Closed)
    {form rest : List Symbol} (ht : t.isTerminal = true)
    (h : Derives g.rulesOf form (t :: rest)) : g.FormLeads form t := by
  induction h using Relation.ReflTransGen.head_induction_on with
  | refl => exact hg.formLeads_cons ht rest
  | head step _ ih => exact hf.formLeads_of_rewrites hg step ih

/-- The symbols of a form that yields nothing lead to the empty string. -/
theorem Closed.leads_epsilon_of_yields (hg : g.Closed) {form w : List Symbol}
    (h : Yields g.rulesOf form w) (hw : w = []) : ∀ x ∈ form, ∃ n, g.Leads n x .epsilon := by
  have hself : g.Leads 0 .epsilon .epsilon := .self fun hv => hg.ne_epsilon_of_mem_vars hv rfl
  induction h with
  | nil => exact fun x hx => absurd hx List.not_mem_nil
  | epsilon _ ih => exact List.forall_mem_cons.mpr ⟨⟨0, hself⟩, ih hw⟩
  | terminal => cases hw
  | @expand m body rest u v mem _ _ ihu ihv =>
    obtain ⟨hu, hv⟩ := List.append_eq_nil_iff.mp hw
    refine List.forall_mem_cons.mpr ⟨?_, ihv hv⟩
    cases hbody : body with
    | nil => exact absurd hbody (g.valid.proper _ body mem).ne_nil
    | cons y tail =>
      have hy : y ∈ body := hbody ▸ List.mem_cons_self
      obtain ⟨n, hn⟩ := ihu hu y hy
      exact ⟨n + 1, .step mem (by rw [hbody, List.head?_cons]) hn⟩

/-- A symbol that leads to the empty string yields nothing. -/
theorem LongBodiesFirm.yields_of_leads (hf : g.LongBodiesFirm) (hg : g.Closed)
    (h : g.Leads n a t) (ht : t = .epsilon) : Yields g.rulesOf [a] [] := by
  induction h with
  | self =>
    rw [ht]
    exact .epsilon .nil
  | @step n a x t body mem head _ ih =>
    have hx := ih ht
    obtain ⟨rest, rfl⟩ := List.head?_eq_some_iff.mp head
    refine (hg.yields_iff (mem_vars_of_mem_rulesOf mem)).mpr ⟨_, mem, ?_⟩
    cases rest with
    | nil => exact hx
    | cons y rest =>
      rcases hg.eq_epsilon_or_nullable mem List.mem_cons_self hx with rfl | ⟨hvar, hnull⟩
      · cases (g.valid.proper a _ mem).epsilon_alone List.mem_cons_self
      · exact absurd hnull (hf a _ mem (Nat.le_add_left 2 rest.length) x hvar rfl)

/-- Where long bodies are firm, FIRST sets hold the terminals with which derived
forms begin, and the empty string where it is derived. -/
theorem LongBodiesFirm.mem_first_iff (hf : g.LongBodiesFirm) (hg : g.Closed) (ha : a ∈ g.vars) :
    t ∈ g.firstTable.lookup a ↔
      (t.isTerminal = true ∧ ∃ rest, Derives g.rulesOf [a] (t :: rest)) ∨
        t = .epsilon ∧ g.Nullable a := by
  rw [hg.mem_lookup_iff fun _ => ha]
  constructor
  · intro ⟨n, hn⟩
    by_cases he : t = .epsilon
    · exact .inr ⟨he, hg.nullable ha (hf.yields_of_leads hg hn he)⟩
    · have hoccurs : g.Occurs t := by
        rcases hn.eq_or_occurs with rfl | ho
        · exact absurd ha hn.notMem
        · exact ho
      have hterminal := hg.isTerminal_of_occurs hoccurs hn.notMem he
      exact .inl ⟨hterminal, hn.exists_derives hg hterminal⟩
  · intro h
    rcases h with ⟨hterminal, rest, hderives⟩ | ⟨rfl, hnull⟩
    · exact (hf.formLeads_of_derives hg hterminal hderives).exists_leads
    · have hyields := (generates_nonterminal (hg.vars_nonterminal a ha)).mp hnull
      exact hg.leads_epsilon_of_yields hyields rfl a List.mem_cons_self

/-- A variable in an alternative stands in a derived form if the owner does, with
the neighbours it has in the alternative. -/
theorem Closed.derives_inside (hg : g.Closed) {b x : Symbol} {front rest : Body}
    {form left right : List Symbol} (mem : front ++ x :: rest ∈ g.rulesOf b) (hx : x ∈ g.vars)
    (h : Derives g.rulesOf form (left ++ b :: right)) :
    Derives g.rulesOf form (left ++ front ++ x :: (rest ++ right)) := by
  obtain ⟨m, rfl⟩ := hg.exists_name (mem_vars_of_mem_rulesOf mem)
  have hmem : x ∈ front ++ x :: rest := List.mem_append_right _ List.mem_cons_self
  have step := Rewrites.apply left right mem
  rw [spelled_of_mem_rulesOf mem (hg.ne_epsilonBody hx hmem), List.append_assoc,
    List.cons_append, ← List.append_assoc left] at step
  exact h.tail step

/-- Behind a variable stands no empty string. -/
theorem Closed.ne_epsilon_behind (hg : g.Closed) {b x y : Symbol} {front rest : Body}
    (mem : front ++ x :: y :: rest ∈ g.rulesOf b) (hx : x ∈ g.vars) : y ≠ .epsilon := by
  rintro rfl
  have hmem : x ∈ front ++ x :: .epsilon :: rest := List.mem_append_right _ List.mem_cons_self
  exact epsilon_notMem mem (hg.ne_epsilonBody hx hmem)
    (List.mem_append_right _ (List.mem_cons_of_mem _ List.mem_cons_self))

/-- What follows a variable stands right behind it in a form that is derived
from the start symbol. -/
theorem FollowsLocally.exists_derives (hl : g.FollowsLocally) (hf : g.LongBodiesFirm)
    (hg : g.Closed) {x : Symbol} (h : g.Follows x t) (ht : t.isTerminal = true) :
    ∃ left right, Derives g.rulesOf [g.start] (left ++ x :: t :: right) := by
  induction h with
  | @next b x y t front rest n mem hx _ leads _ =>
    obtain ⟨left, right, hb⟩ := hl.accessible b (mem_vars_of_mem_rulesOf mem)
    obtain ⟨after, hafter⟩ := leads.exists_derives hg ht
    have hbody := hg.derives_inside mem hx hb
    have hnext := hafter.around (left ++ front ++ [x]) (rest ++ right)
    rw [List.append_assoc _ [x], List.append_assoc _ [x]] at hnext
    exact ⟨left ++ front, after ++ (rest ++ right), hbody.trans hnext⟩
  | @last b x t front mem hx _ _ ih =>
    obtain ⟨left, right, hb⟩ := ih ht
    exact ⟨left ++ front, right, hg.derives_inside mem hx hb⟩
  | @vanishing b x y t front rest n mem hx _ leads _ ih =>
    obtain ⟨left, right, hb⟩ := ih ht
    have hmem : y ∈ front ++ x :: y :: rest :=
      List.mem_append_right _ (List.mem_cons_of_mem _ List.mem_cons_self)
    have hempty := hg.ne_epsilon_behind mem hx
    have hyields := hf.yields_of_leads hg leads rfl
    obtain ⟨hvar, hnull⟩ := (hg.eq_epsilon_or_nullable mem hmem hyields).resolve_left hempty
    have hrest := hl.trailing b front x y rest mem hx hvar hnull
    rw [hrest] at mem
    have hbody := hg.derives_inside mem hx hb
    have hgone := hnull.1.around (left ++ front ++ [x]) (t :: right)
    rw [List.append_assoc _ [x], List.append_assoc _ [x]] at hgone
    exact ⟨left ++ front, right, hbody.trans hgone⟩

/-- What the unread symbols around a variable lead to follows the variable. -/
theorem FollowsLocally.follows_of_nested (hl : g.FollowsLocally) (hg : g.Closed) {x : Symbol}
    {levels : List Body} (hn : g.Nested x levels) (hx : x ∈ g.vars)
    (ht : t ≠ .epsilon) (h : g.FormLeads levels.flatten t) : g.Follows x t := by
  induction hn with
  | start =>
    obtain ⟨front, y, rest, -, hform, -⟩ := h
    cases (List.append_eq_nil_iff.mp hform.symm).2
  | @inside b x read unread levels mem _ ih =>
    have hne : x ≠ g.start := by
      rintro rfl
      exact hl.start_apart ⟨b, _, mem, List.mem_append_right _ List.mem_cons_self⟩
    have hb := mem_vars_of_mem_rulesOf mem
    obtain ⟨front, y, rest, n, hform, hfront, hlead⟩ := h
    rw [List.flatten_cons] at hform
    -- a symbol right behind the variable that yields nothing ends the body
    have ends : ∀ z after, unread = z :: after → Yields g.rulesOf [z] [] → after = [] := by
      intro z after hunread hz
      rw [hunread] at mem
      have hmem : z ∈ read ++ x :: z :: after :=
        List.mem_append_right _ (List.mem_cons_of_mem _ List.mem_cons_self)
      have hempty := hg.ne_epsilon_behind mem hx
      obtain ⟨hvar, hnull⟩ := (hg.eq_epsilon_or_nullable mem hmem hz).resolve_left hempty
      exact hl.trailing b read x z after mem hx hvar hnull
    rcases cases_of_append_eq_append_cons hform with ⟨after, hunread, -⟩ | ⟨inner, rfl, hlevels⟩
    · cases front with
      | nil =>
        rw [hunread] at mem
        exact .next mem hx hne hlead ht
      | cons z front =>
        obtain ⟨u, v, huv, hz, -⟩ := hfront.uncons
        rw [(List.append_eq_nil_iff.mp huv.symm).1] at hz
        cases (List.append_eq_nil_iff.mp (ends z _ hunread hz)).2
    · obtain ⟨u, v, huv, hunread, hinner⟩ := hfront.split
      obtain ⟨rfl, rfl⟩ := List.append_eq_nil_iff.mp huv.symm
      have houter := ih hb ⟨inner, y, rest, n, hlevels, hinner, hlead⟩
      cases unread with
      | nil => exact .last mem hx hne houter
      | cons z after =>
        obtain ⟨k, hk⟩ := hg.leads_epsilon_of_yields hunread rfl z List.mem_cons_self
        exact .vanishing mem hx hne hk houter

/-- What follows a variable are the terminals right behind it in forms that are
derived from the start symbol. -/
theorem FollowsLocally.follows_iff (hl : g.FollowsLocally) (hf : g.LongBodiesFirm)
    (hg : g.Closed) {x : Symbol} (hx : x ∈ g.vars) :
    g.Follows x t ↔
      t.isTerminal = true ∧ ∃ left right, Derives g.rulesOf [g.start] (left ++ x :: t :: right) := by
  constructor
  · intro h
    obtain ⟨hvar, hempty, hoccurs⟩ :=
      hg.followSets.mem_members (hg.mem_follow_of_follows h)
    have ht := hg.isTerminal_of_occurs hoccurs hvar hempty
    exact ⟨ht, hl.exists_derives hf hg h ht⟩
  · intro ⟨ht, left, right, h⟩
    obtain ⟨levels, hnested, hlevels⟩ := exists_nested h left x (t :: right) rfl
    have hempty : t ≠ .epsilon := by
      rintro rfl
      cases ht
    exact hl.follows_of_nested hg hnested hx hempty (hf.formLeads_of_derives hg ht hlevels)

/-- Grammars whose lookahead sets are exact satisfy the conditions, if all
variables are reached from the start symbol. -/
theorem ExactLookahead.followsLocally (he : g.ExactLookahead) (hg : g.Closed)
    (h : ∀ a ∈ g.vars, a ∈ g.accessible) : g.LongBodiesFirm ∧ g.FollowsLocally := by
  refine ⟨fun a body hbody hlong x hx hhead => ?_, ⟨fun a ha => ?_, he.start_apart, he.trailing⟩⟩
  · refine he.leading a body hbody ?_ x hx hhead
    rintro rfl
    exact absurd hlong (by decide)
  · exact derives_of_reaches (fun b body hb => hg.vars_nonterminal b (mem_vars_of_mem_rulesOf hb))
      (mem_accessible_iff.mp (h a ha)) (hg.ne_epsilon_of_mem_vars ha)

/-- Every terminal of a FIRST set begins a form that is derived from the
symbol. Where no longer alternative begins with a variable that derives the
empty string, the FIRST set of a variable holds these terminals, and the empty
string if the variable derives it, and nothing else. Where moreover one symbol
of lookahead is enough for what follows, the FOLLOW set of every variable but
the start symbol holds the terminals that stand right behind it in forms
derived from the start symbol, and nothing else. -/
theorem Closed.lookahead_textbook (hg : g.Closed) :
    (∀ a t, t.isTerminal = true → t ∈ (Lookahead.ofGrammar g).firstOf a →
      ∃ rest, Derives g.rulesOf [a] (t :: rest)) ∧
    (g.LongBodiesFirm →
      (∀ a ∈ g.vars, ∀ t, t ∈ (Lookahead.ofGrammar g).firstOf a ↔
        (t.isTerminal = true ∧ ∃ rest, Derives g.rulesOf [a] (t :: rest)) ∨
          t = .epsilon ∧ Derives g.rulesOf [a] []) ∧
      (g.FollowsLocally → ∀ a ∈ g.vars, a ≠ g.start →
        ∃ s, (Lookahead.ofGrammar g).followOf a = some s ∧
          ∀ t, t ∈ s ↔ t.isTerminal = true ∧
            ∃ left right, Derives g.rulesOf [g.start] (left ++ a :: t :: right))) := by
  refine ⟨fun a t ht h => ?_, fun hf => ⟨fun a ha t => ?_, fun hl a ha hne => ?_⟩⟩
  · obtain ⟨n, hn⟩ := hg.firstSets.leads hg h
    exact hn.exists_derives hg ht
  · rw [← nullable_iff]
    exact hf.mem_first_iff hg ha
  · obtain ⟨s, hs⟩ := hg.followSets.exists_set a ha hne
    refine ⟨s, ?_, fun t => ?_⟩
    · rw [Lookahead.followOf, Lookahead.ofGrammar, hs, Option.getD_some]
    · have hmembers : g.followTable.members a = s := by
        rw [FollowTable.members, hs]
        rfl
      rw [← hmembers, hg.mem_follow_iff, hl.follows_iff hf hg ha]

/-- Lists in brackets, of items with commas between them. -/
def bracketedLists : Grammar :=
  ⟨componentsOfNames ["P", "L", "I", "T"] ["[", "]", ",", "x"]
    [("P", [["[", "L", "]"]]), ("L", [["I", "T"]]), ("I", [["x"]]),
      ("T", [[",", "I", "T"], ["epsilon"]])] "P" none,
    by decide +kernel⟩

theorem bracketedLists_closed : bracketedLists.Closed := closed_of_componentsOfNames rfl

/-- What comes behind an item of a list is what comes behind it in derived
forms. -/
theorem lookahead_textbook_bracketedLists :
    bracketedLists.Closed ∧ bracketedLists.LongBodiesFirm ∧ bracketedLists.FollowsLocally ∧
      ∃ s, (Lookahead.ofGrammar bracketedLists).followOf (.nonterminal "I") = some s ∧
        ∀ t, t ∈ s ↔ t.isTerminal = true ∧ ∃ left right,
          Derives bracketedLists.rulesOf [bracketedLists.start]
            (left ++ .nonterminal "I" :: t :: right) := by
  have hahead := bracketedLists_closed.exactLookahead (by decide +kernel)
  obtain ⟨hf, hl⟩ := hahead.followsLocally bracketedLists_closed (by decide +kernel)
  obtain ⟨-, hbehind⟩ := (bracketedLists_closed.lookahead_textbook).2 hf
  exact ⟨bracketedLists_closed, hf, hl, hbehind hl _ (by decide +kernel) (by decide +kernel)⟩

end PredictiveParsing.Grammar
