import Mathlib.Logic.Relation
import PredictiveParsing.Symbol

/-!
# Derivations

A nonterminal is rewritten to the symbols of one of its alternatives; a
string of terminals that comes out of such steps is generated. Beside the
steps stands a relation that reads a derivation as a whole, one nonterminal
after the other. Both give the same strings of terminals. The second one
carries the inductions: whatever is closed under the rules holds of all that
is generated.
-/

namespace PredictiveParsing

/-- The alternatives of every symbol, however a grammar stores them. -/
abbrev Productions := Symbol → List Body

/-- What a body contributes to a string: the empty string contributes no
symbol. -/
def Body.spelled (body : Body) : List Symbol := body.filter fun a => !a.isEpsilon

@[simp] theorem Body.spelled_nil : Body.spelled [] = [] := rfl

@[simp] theorem Body.spelled_epsilon (rest : Body) :
    Body.spelled (.epsilon :: rest) = Body.spelled rest := rfl

@[simp] theorem Body.spelled_terminal (t : String) (rest : Body) :
    Body.spelled (.terminal t :: rest) = .terminal t :: Body.spelled rest := rfl

@[simp] theorem Body.spelled_nonterminal (n : String) (rest : Body) :
    Body.spelled (.nonterminal n :: rest) = .nonterminal n :: Body.spelled rest := rfl

/-- A body contributes its symbols, the empty string aside. -/
theorem Body.mem_spelled {x : Symbol} {body : Body} :
    x ∈ Body.spelled body ↔ x ∈ body ∧ x ≠ .epsilon := by
  rw [spelled, List.mem_filter, Bool.not_eq_true', ← Bool.not_eq_true, Symbol.isEpsilon_iff]

/-- The empty string is never contributed. -/
theorem Body.epsilon_notMem_spelled (body : Body) : .epsilon ∉ Body.spelled body :=
  fun h => (mem_spelled.mp h).2 rfl

/-- Without the empty string a body is spelled as it is. -/
theorem Body.spelled_eq_self {body : Body} (h : .epsilon ∉ body) : Body.spelled body = body := by
  refine List.filter_eq_self.mpr fun a ha => ?_
  cases a with
  | epsilon => exact absurd ha h
  | terminal t => rfl
  | nonterminal n => rfl

/-- A string of terminals. -/
def IsWord (w : List Symbol) : Prop := ∀ a ∈ w, a.isTerminal = true

/-- The empty string of terminals. -/
theorem isWord_nil : IsWord [] := fun _ h => absurd h List.not_mem_nil

/-- A string of terminals is put together from such strings. -/
theorem isWord_append {u v : List Symbol} : IsWord (u ++ v) ↔ IsWord u ∧ IsWord v := by
  simp only [IsWord, List.mem_append]
  exact ⟨fun h => ⟨fun a ha => h a (.inl ha), fun a ha => h a (.inr ha)⟩,
    fun h a ha => ha.elim (h.1 a) (h.2 a)⟩

/-- A terminal in front of a string of terminals. -/
theorem isWord_terminal_cons {t : String} {w : List Symbol} :
    IsWord (.terminal t :: w) ↔ IsWord w := by
  simp only [IsWord, List.mem_cons, forall_eq_or_imp, Symbol.isTerminal, true_and]

/-- One step: a nonterminal is replaced by the symbols of an alternative. -/
inductive Rewrites (P : Productions) : List Symbol → List Symbol → Prop
  /-- The nonterminal may stand anywhere. -/
  | apply (left right : List Symbol) {name : String} {body : Body}
      (mem : body ∈ P (.nonterminal name)) :
      Rewrites P (left ++ .nonterminal name :: right) (left ++ (Body.spelled body ++ right))

/-- Any number of steps. -/
def Derives (P : Productions) : List Symbol → List Symbol → Prop :=
  Relation.ReflTransGen (Rewrites P)

/-- The strings of terminals that are derived from a form. -/
def Generates (P : Productions) (form w : List Symbol) : Prop := Derives P form w ∧ IsWord w

/-- A derivation of a string of terminals, read as a whole from left to
right: every nonterminal yields a part of the string through one of its
alternatives. -/
inductive Yields (P : Productions) : List Symbol → List Symbol → Prop
  /-- Nothing is left to be read. -/
  | nil : Yields P [] []
  /-- The empty string yields nothing. -/
  | epsilon {rest w : List Symbol} (tail : Yields P rest w) : Yields P (.epsilon :: rest) w
  /-- A terminal yields itself. -/
  | terminal {t : String} {rest w : List Symbol} (tail : Yields P rest w) :
      Yields P (.terminal t :: rest) (.terminal t :: w)
  /-- A nonterminal yields what one of its alternatives does. -/
  | expand {n : String} {body : Body} {rest u v : List Symbol}
      (mem : body ∈ P (.nonterminal n)) (head : Yields P body u) (tail : Yields P rest v) :
      Yields P (.nonterminal n :: rest) (u ++ v)

section

variable {P : Productions}

/-- A step is made beside symbols that stay. -/
theorem Rewrites.around {u v : List Symbol} (h : Rewrites P u v) (left right : List Symbol) :
    Rewrites P (left ++ (u ++ right)) (left ++ (v ++ right)) := by
  cases h with
  | apply l r mem =>
    have := Rewrites.apply (left ++ l) (r ++ right) mem
    simpa only [List.append_assoc, List.cons_append] using this

/-- Steps go on beside symbols that stay. -/
theorem Derives.around {u v : List Symbol} (h : Derives P u v) (left right : List Symbol) :
    Derives P (left ++ (u ++ right)) (left ++ (v ++ right)) := by
  induction h with
  | refl => exact .refl
  | tail _ step ih => exact ih.tail (step.around left right)

/-- Derivations of two parts are put together. -/
theorem Derives.append {x y u v : List Symbol} (hx : Derives P x u) (hy : Derives P y v) :
    Derives P (x ++ y) (u ++ v) := by
  have first : Derives P (x ++ y) (u ++ y) := by simpa using hx.around [] y
  have second : Derives P (u ++ y) (u ++ v) := by simpa using hy.around u []
  exact first.trans second

/-- What two parts yield is put together. -/
theorem Yields.append {x y u v : List Symbol} (hx : Yields P x u) (hy : Yields P y v) :
    Yields P (x ++ y) (u ++ v) := by
  induction hx with
  | nil => exact hy
  | epsilon _ ih => exact .epsilon ih
  | terminal _ ih => exact .terminal ih
  | expand mem head _ _ ih =>
    rw [List.append_assoc]
    exact .expand mem head ih

/-- What a form yields is split where the form is. -/
theorem Yields.split {x y w : List Symbol} (h : Yields P (x ++ y) w) :
    ∃ u v, w = u ++ v ∧ Yields P x u ∧ Yields P y v := by
  induction x generalizing w with
  | nil => exact ⟨[], w, rfl, .nil, h⟩
  | cons a rest ih =>
    cases h with
    | epsilon tail =>
      obtain ⟨u, v, rfl, hu, hv⟩ := ih tail
      exact ⟨u, v, rfl, .epsilon hu, hv⟩
    | terminal tail =>
      obtain ⟨u, v, rfl, hu, hv⟩ := ih tail
      exact ⟨_, v, rfl, .terminal hu, hv⟩
    | expand mem head tail =>
      obtain ⟨u, v, rfl, hu, hv⟩ := ih tail
      exact ⟨_, v, (List.append_assoc _ _ _).symm, .expand mem head hu, hv⟩

/-- What a form yields starts with what its first symbol yields. -/
theorem Yields.uncons {a : Symbol} {rest w : List Symbol} (h : Yields P (a :: rest) w) :
    ∃ u v, w = u ++ v ∧ Yields P [a] u ∧ Yields P rest v :=
  Yields.split (x := [a]) h

/-- The empty string alone yields nothing. -/
theorem yields_epsilonBody {w : List Symbol} : Yields P epsilonBody w ↔ w = [] := by
  constructor
  · intro h
    cases h with
    | epsilon tail => cases tail; rfl
  · rintro rfl
    exact .epsilon .nil

/-- No nonterminal stands beside the empty string. -/
theorem nonterminal_notMem_epsilonBody (n : String) : .nonterminal n ∉ epsilonBody := by
  simp [epsilonBody]

/-- A nonterminal alone yields what its alternatives yield. -/
theorem yields_nonterminal {n : String} {w : List Symbol} :
    Yields P [.nonterminal n] w ↔ ∃ body ∈ P (.nonterminal n), Yields P body w := by
  constructor
  · intro h
    cases h with
    | expand mem head tail =>
      cases tail
      exact ⟨_, mem, (List.append_nil _).symm ▸ head⟩
  · rintro ⟨body, mem, head⟩
    have := Yields.expand mem head .nil
    rwa [List.append_nil] at this

/-- What is yielded consists of terminals. -/
theorem Yields.isWord {form w : List Symbol} (h : Yields P form w) : IsWord w := by
  induction h with
  | nil => exact isWord_nil
  | epsilon _ ih => exact ih
  | terminal _ ih => exact isWord_terminal_cons.mpr ih
  | expand _ _ _ ihu ihv => exact isWord_append.mpr ⟨ihu, ihv⟩

/-- A string of terminals yields itself. -/
theorem IsWord.yields {w : List Symbol} (h : IsWord w) : Yields P w w := by
  induction w with
  | nil => exact .nil
  | cons a rest ih =>
    cases a with
    | terminal t => exact .terminal (ih (isWord_terminal_cons.mp h))
    | epsilon => exact absurd (h _ List.mem_cons_self) (by decide)
    | nonterminal n => exact absurd (h _ List.mem_cons_self) Bool.false_ne_true

/-- The empty string in a body does not matter for what the body yields. -/
theorem yields_spelled {body : Body} {w : List Symbol} :
    Yields P (Body.spelled body) w ↔ Yields P body w := by
  induction body generalizing w with
  | nil => rfl
  | cons a rest ih =>
    cases a with
    | epsilon =>
      rw [Body.spelled_epsilon, ih]
      exact ⟨.epsilon, fun h => by cases h; assumption⟩
    | terminal t =>
      rw [Body.spelled_terminal]
      constructor
      · intro h
        cases h with
        | terminal tail => exact .terminal (ih.mp tail)
      · intro h
        cases h with
        | terminal tail => exact .terminal (ih.mpr tail)
    | nonterminal n =>
      rw [Body.spelled_nonterminal]
      constructor
      · intro h
        cases h with
        | expand mem head tail => exact .expand mem head (ih.mp tail)
      · intro h
        cases h with
        | expand mem head tail => exact .expand mem head (ih.mpr tail)

/-- With more alternatives no less is yielded. -/
theorem Yields.mono {Q : Productions} (h : ∀ a, ∀ body ∈ P a, body ∈ Q a) {form w : List Symbol}
    (hw : Yields P form w) : Yields Q form w := by
  induction hw with
  | nil => exact .nil
  | epsilon _ ih => exact .epsilon ih
  | terminal _ ih => exact .terminal ih
  | expand mem _ _ ihu ihv => exact .expand (h _ _ mem) ihu ihv

/-- Among symbols whose bodies stay, with the symbols of the bodies among them,
what is yielded stays. -/
theorem Yields.mono_within {Q : Productions} {S : Symbol → Prop}
    (h : ∀ a, S a → ∀ body ∈ P a, body ∈ Q a ∧ ∀ x ∈ body, S x) {form w : List Symbol}
    (hw : Yields P form w) (hform : ∀ x ∈ form, S x) : Yields Q form w := by
  induction hw with
  | nil => exact .nil
  | epsilon _ ih => exact .epsilon (ih (List.forall_mem_cons.mp hform).2)
  | terminal _ ih => exact .terminal (ih (List.forall_mem_cons.mp hform).2)
  | expand mem _ _ ihu ihv =>
    obtain ⟨hfirst, hrest⟩ := List.forall_mem_cons.mp hform
    obtain ⟨hmem, hbody⟩ := h _ hfirst _ mem
    exact .expand hmem (ihu hbody) (ihv hrest)

/-- Whatever is yielded after some steps is yielded before them. -/
theorem Yields.of_derives {form next w : List Symbol} (h : Derives P form next)
    (hw : Yields P next w) : Yields P form w := by
  induction h using Relation.ReflTransGen.head_induction_on with
  | refl => exact hw
  | head step _ ih =>
    cases step with
    | apply left right mem =>
      obtain ⟨u, v, rfl, hu, hv⟩ := Yields.split ih
      obtain ⟨x, y, rfl, hx, hy⟩ := Yields.split hv
      exact hu.append (.expand mem (yields_spelled.mp hx) hy)

/-- What a form yields is derived from its symbols. -/
theorem Yields.derives {form w : List Symbol} (h : Yields P form w) :
    Derives P (Body.spelled form) w := by
  induction h with
  | nil => exact .refl
  | epsilon _ ih => exact ih
  | terminal _ ih => simpa using ih.around [.terminal _] []
  | @expand n body rest u v mem _ _ ihu ihv =>
    have step := Rewrites.apply [] (Body.spelled rest) mem
    exact (Relation.ReflTransGen.single step).trans (ihu.append ihv)

/-- The two readings of a derivation generate the same strings. -/
theorem generates_iff_yields {form w : List Symbol} (h : .epsilon ∉ form) :
    Generates P form w ↔ Yields P form w := by
  constructor
  · rintro ⟨hd, hw⟩
    exact Yields.of_derives hd hw.yields
  · intro hy
    have hd := hy.derives
    rw [Body.spelled_eq_self h] at hd
    exact ⟨hd, hy.isWord⟩

/-- A nonterminal generates what it yields. -/
theorem generates_nonterminal {a : Symbol} (h : a.isNonterminal = true) {w : List Symbol} :
    Generates P [a] w ↔ Yields P [a] w := by
  refine generates_iff_yields ?_
  cases a with
  | nonterminal n => simp
  | epsilon => cases h
  | terminal t => cases h

end

/-- What a string of symbols spells when each symbol is read as a set of
strings. -/
def Spells (S : Symbol → List Symbol → Prop) : List Symbol → List Symbol → Prop
  | [], w => w = []
  | a :: rest, w => ∃ u v, w = u ++ v ∧ S a u ∧ Spells S rest v

section

variable {P : Productions} {S T : Symbol → List Symbol → Prop}

/-- Readings may be compared symbol by symbol. -/
theorem Spells.imp {form w : List Symbol} (h : ∀ a ∈ form, ∀ v, S a v → T a v)
    (hs : Spells S form w) : Spells T form w := by
  induction form generalizing w with
  | nil => exact hs
  | cons a rest ih =>
    obtain ⟨u, v, rfl, hu, hv⟩ := hs
    exact ⟨u, v, rfl, h a List.mem_cons_self u hu,
      ih (fun b hb => h b (List.mem_cons_of_mem _ hb)) hv⟩

/-- What two parts spell is put together, and only that is spelled. -/
theorem spells_append {x y w : List Symbol} :
    Spells S (x ++ y) w ↔ ∃ u v, w = u ++ v ∧ Spells S x u ∧ Spells S y v := by
  induction x generalizing w with
  | nil =>
    constructor
    · intro h
      exact ⟨[], w, rfl, rfl, h⟩
    · rintro ⟨u, v, rfl, rfl, h⟩
      exact h
  | cons a rest ih =>
    constructor
    · rintro ⟨u, v, rfl, hu, hv⟩
      obtain ⟨x, y, rfl, hx, hy⟩ := ih.mp hv
      exact ⟨u ++ x, y, (List.append_assoc _ _ _).symm, ⟨u, x, rfl, hu, hx⟩, hy⟩
    · rintro ⟨_, v, rfl, ⟨u, x, rfl, hu, hx⟩, hv⟩
      exact ⟨u, x ++ v, List.append_assoc _ _ _, hu, ih.mpr ⟨x, v, rfl, hx, hv⟩⟩

/-- What a single symbol spells. -/
theorem spells_singleton {a : Symbol} {w : List Symbol} : Spells S [a] w ↔ S a w := by
  constructor
  · rintro ⟨u, v, rfl, hu, rfl⟩
    rwa [List.append_nil]
  · intro h
    exact ⟨w, [], (List.append_nil w).symm, h, rfl⟩

/-- Where every symbol is read as what it yields, a form spells what it
yields. -/
theorem spells_yields {form w : List Symbol} :
    Spells (fun a v => Yields P [a] v) form w ↔ Yields P form w := by
  induction form generalizing w with
  | nil =>
    constructor
    · rintro rfl
      exact .nil
    · intro h
      cases h
      rfl
  | cons a rest ih =>
    constructor
    · rintro ⟨u, v, rfl, hu, hv⟩
      exact hu.append (ih.mp hv)
    · intro h
      obtain ⟨u, v, rfl, hu, hv⟩ := h.uncons
      exact ⟨u, v, rfl, hu, ih.mpr hv⟩

/-- What is yielded is spelled in every reading that is closed under the
rules. -/
theorem Yields.spells (epsilon : S .epsilon []) (terminal : ∀ t, S (.terminal t) [.terminal t])
    (rule : ∀ n, ∀ body ∈ P (.nonterminal n), ∀ w, Spells S body w → S (.nonterminal n) w)
    {form w : List Symbol} (h : Yields P form w) : Spells S form w := by
  induction h with
  | nil => rfl
  | epsilon _ ih => exact ⟨[], _, rfl, epsilon, ih⟩
  | terminal _ ih => exact ⟨[.terminal _], _, rfl, terminal _, ih⟩
  | expand mem _ _ ihu ihv => exact ⟨_, _, rfl, rule _ _ mem _ ihu, ihv⟩

end

/-- A symbol that generates some string of terminals. -/
def Productive (P : Productions) (a : Symbol) : Prop := ∃ w, Yields P [a] w

/-- A form of productive symbols yields some string. -/
theorem exists_yields {P : Productions} {form : List Symbol} (h : ∀ a ∈ form, Productive P a) :
    ∃ w, Yields P form w := by
  induction form with
  | nil => exact ⟨[], .nil⟩
  | cons a rest ih =>
    obtain ⟨u, hu⟩ := h a List.mem_cons_self
    obtain ⟨v, hv⟩ := ih fun b hb => h b (List.mem_cons_of_mem _ hb)
    exact ⟨u ++ v, hu.append hv⟩

/-- A symbol other than a nonterminal is productive. -/
theorem productive_of_not_nonterminal {P : Productions} {a : Symbol}
    (h : a.isNonterminal = false) : Productive P a := by
  cases a with
  | epsilon => exact ⟨[], .epsilon .nil⟩
  | terminal t => exact ⟨[.terminal t], .terminal .nil⟩
  | nonterminal n => cases h

end PredictiveParsing
