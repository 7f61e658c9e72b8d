import Mathlib.Logic.Equiv.Basic
import PredictiveParsing.Proofs.Reduction.FreshVariables

/-!
# Renamings of nonterminals

A renaming exchanges the names of nonterminals and leaves the empty string
and the terminals alone. It carries one grammar to another if variables,
alternatives and start symbol of the one become those of the other; the
display order and the order of the rule table do not count. A renaming that
is right for the variables at hand can be made right for new ones, as long as
they are new on both sides: a name that is in the way is exchanged.
-/

namespace PredictiveParsing

/-- An exchange of names of nonterminals. -/
structure Renaming where
  /-- What becomes of each name. -/
  names : Equiv.Perm String

namespace Renaming

/-- What becomes of a symbol. -/
def symbol (σ : Renaming) : Symbol → Symbol
  | .epsilon => .epsilon
  | .terminal t => .terminal t
  | .nonterminal n => .nonterminal (σ.names n)

instance : CoeFun Renaming fun _ => Symbol → Symbol := ⟨symbol⟩

/-- What becomes of a body. -/
def body (σ : Renaming) (b : Body) : Body := b.map σ

/-- The renaming that leaves every name. -/
def id : Renaming := ⟨Equiv.refl String⟩

/-- The renaming back. -/
def inverse (σ : Renaming) : Renaming := ⟨σ.names.symm⟩

variable {σ : Renaming} {a b x : Symbol}

@[simp] theorem id_apply (a : Symbol) : id a = a := by
  cases a <;> rfl

@[simp] theorem inverse_apply (σ : Renaming) (a : Symbol) : σ.inverse (σ a) = a := by
  cases a with
  | epsilon => rfl
  | terminal t => rfl
  | nonterminal n => exact congrArg Symbol.nonterminal (σ.names.symm_apply_apply n)

@[simp] theorem apply_inverse (σ : Renaming) (a : Symbol) : σ (σ.inverse a) = a := by
  cases a with
  | epsilon => rfl
  | terminal t => rfl
  | nonterminal n => exact congrArg Symbol.nonterminal (σ.names.apply_symm_apply n)

/-- Different symbols become different symbols. -/
theorem injective (σ : Renaming) : Function.Injective σ := fun a b h => by
  rw [← σ.inverse_apply a, h, σ.inverse_apply]

@[simp] theorem apply_inj (σ : Renaming) : σ a = σ b ↔ a = b := σ.injective.eq_iff

/-- Every symbol is what some symbol becomes. -/
theorem exists_apply_eq (σ : Renaming) (b : Symbol) : ∃ a, σ a = b :=
  ⟨σ.inverse b, σ.apply_inverse b⟩

/-- Only nonterminals are renamed. -/
theorem apply_eq_self (σ : Renaming) (h : a.isNonterminal = false) : σ a = a := by
  cases a with
  | epsilon => rfl
  | terminal t => rfl
  | nonterminal n => cases h

/-- A symbol keeps its kind. -/
@[simp] theorem isNonterminal_apply (σ : Renaming) (a : Symbol) :
    (σ a).isNonterminal = a.isNonterminal := by
  cases a <;> rfl

/-- Symbols that are no nonterminals come from themselves only. -/
theorem apply_eq_iff (σ : Renaming) (h : b.isNonterminal = false) : σ a = b ↔ a = b := by
  rw [← σ.apply_eq_self h, σ.apply_inj, σ.apply_eq_self h]

@[simp] theorem body_epsilonBody (σ : Renaming) : σ.body epsilonBody = epsilonBody := rfl

@[simp] theorem body_nil (σ : Renaming) : σ.body [] = [] := rfl

@[simp] theorem body_cons (σ : Renaming) (a : Symbol) (rest : Body) :
    σ.body (a :: rest) = σ a :: σ.body rest := rfl

theorem body_append (σ : Renaming) (l m : Body) : σ.body (l ++ m) = σ.body l ++ σ.body m :=
  List.map_append

theorem body_take (σ : Renaming) (n : Nat) (l : Body) : σ.body (l.take n) = (σ.body l).take n :=
  List.map_take

theorem body_drop (σ : Renaming) (n : Nat) (l : Body) : σ.body (l.drop n) = (σ.body l).drop n :=
  List.map_drop

@[simp] theorem length_body (σ : Renaming) (l : Body) : (σ.body l).length = l.length :=
  List.length_map σ

/-- Different bodies become different bodies. -/
theorem body_injective (σ : Renaming) : Function.Injective σ.body :=
  List.map_injective_iff.mpr σ.injective

@[simp] theorem body_inj (σ : Renaming) {l m : Body} : σ.body l = σ.body m ↔ l = m :=
  σ.body_injective.eq_iff

/-- Only the empty string becomes the empty string. -/
@[simp] theorem body_eq_epsilonBody (σ : Renaming) {l : Body} :
    σ.body l = epsilonBody ↔ l = epsilonBody := by
  rw [← σ.body_epsilonBody, σ.body_inj, σ.body_epsilonBody]

@[simp] theorem body_id (l : Body) : id.body l = l :=
  (List.map_congr_left fun a _ => id_apply a).trans (List.map_id l)

/-- Renamings that agree on the nonterminals of a body agree on the body. -/
theorem body_congr {σ τ : Renaming} {l : Body}
    (h : ∀ x ∈ l, x.isNonterminal = true → τ x = σ x) : τ.body l = σ.body l := by
  refine List.map_congr_left fun x hx => ?_
  cases hk : x.isNonterminal with
  | true => exact h x hx hk
  | false => rw [σ.apply_eq_self hk, τ.apply_eq_self hk]

/-- A renaming where one more nonterminal becomes a given one, at the cost of
the one that became it before. -/
def redirect (σ : Renaming) (n m : String) : Renaming :=
  ⟨σ.names.trans (Equiv.swap (σ.names n) m)⟩

/-- The redirected nonterminal. -/
theorem redirect_apply (σ : Renaming) (n m : String) :
    σ.redirect n m (.nonterminal n) = .nonterminal m :=
  congrArg Symbol.nonterminal (Equiv.swap_apply_left (σ.names n) m)

/-- Other symbols, unless they became the target before. -/
theorem redirect_apply_of_ne {n m : String} (ha : a ≠ .nonterminal n)
    (hσ : σ a ≠ .nonterminal m) : σ.redirect n m a = σ a := by
  cases a with
  | epsilon => rfl
  | terminal t => rfl
  | nonterminal k =>
    refine congrArg Symbol.nonterminal (Equiv.swap_apply_of_ne_of_ne (fun e => ha ?_) fun e => hσ ?_)
    · rw [σ.names.injective e]
    · exact congrArg Symbol.nonterminal e

/-- A renaming of some symbols can be extended to new nonterminals, that
become given ones, if these are new on the other side. -/
theorem exists_extension (σ : Renaming) (old : Symbol → Prop) (pairs : List (Symbol × Symbol))
    (hkinds : ∀ pair ∈ pairs, pair.1.isNonterminal = true ∧ pair.2.isNonterminal = true)
    (hfirst : (pairs.map Prod.fst).Nodup) (hsecond : (pairs.map Prod.snd).Nodup)
    (hnew : ∀ pair ∈ pairs, ¬old pair.1) (hfree : ∀ pair ∈ pairs, ∀ a, old a → σ a ≠ pair.2) :
    ∃ τ : Renaming, (∀ a, old a → τ a = σ a) ∧ ∀ pair ∈ pairs, τ pair.1 = pair.2 := by
  induction pairs with
  | nil => exact ⟨σ, fun _ _ => rfl, fun pair h => absurd h List.not_mem_nil⟩
  | cons pair rest ih =>
    obtain ⟨hu, hfirst⟩ := List.nodup_cons.mp hfirst
    obtain ⟨hv, hsecond⟩ := List.nodup_cons.mp hsecond
    have later : ∀ {q}, q ∈ rest → q ∈ pair :: rest := fun h => List.mem_cons_of_mem _ h
    obtain ⟨τ, hold, hrest⟩ := ih (fun q hq => hkinds q (later hq)) hfirst hsecond
      (fun q hq => hnew q (later hq)) fun q hq => hfree q (later hq)
    obtain ⟨u, v⟩ := pair
    obtain ⟨hku, hkv⟩ := hkinds _ List.mem_cons_self
    obtain ⟨n, rfl⟩ := Symbol.isNonterminal_iff.mp hku
    obtain ⟨m, rfl⟩ := Symbol.isNonterminal_iff.mp hkv
    refine ⟨τ.redirect n m, fun a ha => ?_, fun q hq => ?_⟩
    · rw [← hold a ha]
      refine redirect_apply_of_ne (fun e => hnew _ List.mem_cons_self (e ▸ ha)) ?_
      rw [hold a ha]
      exact hfree _ List.mem_cons_self a ha
    · rcases List.mem_cons.mp hq with rfl | hq
      · exact τ.redirect_apply n m
      · have hq₁ : q.1 ∈ rest.map Prod.fst := List.mem_map_of_mem hq
        have hq₂ : q.2 ∈ rest.map Prod.snd := List.mem_map_of_mem hq
        have hne : τ q.1 ≠ .nonterminal m := by
          rw [hrest q hq]
          exact fun e => hv (e ▸ hq₂)
        rw [redirect_apply_of_ne (fun e => hu (e ▸ hq₁)) hne, hrest q hq]

/-- A renaming carries one grammar to another, whatever the orders of the
variables and of the rule tables are. -/
structure Carries (σ : Renaming) (c d : Components) : Prop where
  /-- Start symbol becomes start symbol. -/
  start : d.start = σ c.start
  /-- Variables, and only they, become variables. -/
  vars : ∀ a, σ a ∈ d.vars ↔ a ∈ c.vars
  /-- Alternatives become alternatives, and stay in their order. -/
  rules : ∀ a, d.rulesOf (σ a) = (c.rulesOf a).map σ.body

/-- The renaming back carries the other way. -/
theorem Carries.inverse {c d : Components} (h : σ.Carries c d) : σ.inverse.Carries d c := by
  have hbody : ∀ l : Body, σ.inverse.body (σ.body l) = l := by
    intro l
    rw [body, body, List.map_map]
    exact (List.map_congr_left fun a _ => σ.inverse_apply a).trans (List.map_id l)
  refine ⟨by rw [h.start, σ.inverse_apply], fun a => ?_, fun a => ?_⟩
  · rw [← h.vars, σ.apply_inverse]
  · have hrules := h.rules (σ.inverse a)
    rw [σ.apply_inverse] at hrules
    rw [hrules, List.map_map]
    exact ((List.map_congr_left fun l _ => hbody l).trans (List.map_id _)).symm

end Renaming

end PredictiveParsing
