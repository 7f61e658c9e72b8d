import Mathlib.Algebra.BigOperators.Group.List.Basic
import Mathlib.Algebra.Ring.Nat
import PredictiveParsing.Proofs.Grammar.Numbering

/-!
# Rule numbers are places

The list of numbered rules counts from one on through all alternatives, so that a
rule with the number `n` stands at the `n`-th place. It has that number exactly if
the number computed for some alternative of its variable from the first number of
the variable is `n`. Since a place holds one rule, different alternatives, also
equal ones of one variable, have different numbers, and there are as many numbers
as alternatives. This holds whether a display order is given or not, and variables
without rules take no number.
-/

namespace PredictiveParsing.Grammar

/-- The number of alternatives of all variables. -/
def alternativeCount (g : Grammar) : Nat := (g.rules.entries.map fun entry => entry.2.length).sum

/-- Rule numbering as a bijection between alternatives, given by their variable
and their place, and the numbers from one to the number of alternatives; the list
of numbered rules is the inverse. -/
structure Numbers (g : Grammar) : Prop where
  /-- The list counts from one on. -/
  counted : g.numberedRules.map Prod.fst = List.range' 1 g.alternativeCount
  /-- A rule stands at the place of its number, and a place has the number that is
  computed for an alternative of the variable with the same symbols. -/
  entry_iff : ∀ n a body, g.numberedRules[n]? = some (n + 1, a, body) ↔
    a ∈ g.vars ∧ ∃ i : Nat, (g.rulesOf a)[i]? = some body ∧ g.ruleNumber a i = .ok (n + 1 : Nat)
  /-- Every number is that of one alternative and of no other. -/
  unique : ∀ n < g.alternativeCount, ∃! place : Symbol × Nat, place.1 ∈ g.vars ∧
    place.2 < (g.rulesOf place.1).length ∧ g.ruleNumber place.1 place.2 = .ok (n + 1 : Nat)
  /-- Every alternative has a number. -/
  defined : ∀ a ∈ g.vars, ∀ i < (g.rulesOf a).length, ∃ n < g.alternativeCount,
    g.ruleNumber a i = .ok (n + 1 : Nat)
  /-- Where the alternatives of a variable differ, a rule is at the place of its
  number only. -/
  entry_iff_of_nodup : ∀ a, (g.rulesOf a).Nodup → ∀ n (i : Nat) body,
    (g.rulesOf a)[i]? = some body →
      (g.numberedRules[n]? = some (n + 1, a, body) ↔ g.ruleNumber a i = .ok (n + 1 : Nat))

variable {g : Grammar} {a : Symbol} {body : Body}

/-- A sum is not changed by leaving out what counts nothing. -/
theorem sum_map_filter {α : Type} {f : α → Nat} {p : α → Bool} {l : List α}
    (h : ∀ b ∈ l, p b = false → f b = 0) : ((l.filter p).map f).sum = (l.map f).sum := by
  induction l with
  | nil => rfl
  | cons b rest ih =>
    have hrest := ih fun c hc => h c (List.mem_cons_of_mem _ hc)
    rw [List.map_cons, List.sum_cons, ← hrest]
    cases hb : p b with
    | true => rw [List.filter_cons_of_pos hb, List.map_cons, List.sum_cons]
    | false =>
      rw [List.filter_cons_of_neg (by rw [hb]; exact Bool.false_ne_true),
        h b List.mem_cons_self hb, Nat.zero_add]

/-- A symbol without an entry has no alternatives. -/
theorem rulesOf_eq_nil_of_notMem (h : a ∉ g.rules.keys) : g.rulesOf a = [] := by
  rw [rulesOf]
  cases hget : g.rules.get? a with
  | none => rfl
  | some bodies => exact absurd (SymbolTable.mem_keys_iff.mpr ⟨bodies, hget⟩) h

/-- Through the display order all alternatives are counted. -/
theorem sum_displayOrder (g : Grammar) :
    (g.displayOrder.map fun a => (g.rulesOf a).length).sum = g.alternativeCount := by
  have hkeys : (g.displayOrder.filter fun a => decide (a ∈ g.rules.keys)).Perm g.rules.keys := by
    refine (List.perm_ext_iff_of_nodup (g.nodup_displayOrder.filter _) g.rules.nodup_keys).mpr
      fun a => ?_
    rw [List.mem_filter, decide_eq_true_eq, mem_displayOrder]
    refine and_iff_right_of_imp fun hk => ?_
    obtain ⟨bodies, hget⟩ := SymbolTable.mem_keys_iff.mp hk
    exact g.valid.key_mem a bodies hget
  have hentries : g.rules.keys.map (fun a => (g.rulesOf a).length) =
      g.rules.entries.map fun entry => entry.2.length := by
    rw [SymbolTable.keys, List.map_map]
    refine List.map_congr_left fun entry hentry => ?_
    have hget := SymbolTable.mem_entries_iff.mp (show (entry.1, entry.2) ∈ _ from hentry)
    rw [Function.comp_apply, rulesOf, hget, Option.getD_some]
  have hfilter := sum_map_filter (f := fun a => (g.rulesOf a).length)
    (p := fun a => decide (a ∈ g.rules.keys)) (l := g.displayOrder) fun b _ hb => by
      rw [rulesOf_eq_nil_of_notMem (of_decide_eq_false hb), List.length_nil]
  rw [← hfilter, (hkeys.map _).sum_eq, hentries, alternativeCount]

/-- The alternatives of one variable are counted one by one. -/
theorem map_fst_numberBodies (a : Symbol) (n : Nat) (bodies : List Body) :
    (numberBodies a n bodies).map Prod.fst = List.range' n bodies.length := by
  induction bodies generalizing n with
  | nil => rfl
  | cons body rest ih => rw [numberBodies, List.map_cons, ih, List.length_cons, List.range'_succ]

/-- Those of listed variables are counted on. -/
theorem map_fst_numberedFrom (g : Grammar) (n : Nat) (order : List Symbol) :
    (g.numberedFrom n order).map Prod.fst =
      List.range' n (order.map fun a => (g.rulesOf a).length).sum := by
  induction order generalizing n with
  | nil => rfl
  | cons a rest ih =>
    rw [numberedFrom, List.map_append, map_fst_numberBodies, ih, List.map_cons, List.sum_cons,
      List.range'_append_1]

/-- The numbers are the places. -/
theorem map_fst_numberedRules (g : Grammar) :
    g.numberedRules.map Prod.fst = List.range' 1 g.alternativeCount := by
  rw [numberedRules, map_fst_numberedFrom, sum_displayOrder]

/-- The numbered alternatives of one variable. -/
theorem mem_numberBodies {b : Symbol} {n m : Nat} {bodies : List Body}
    (h : (m, a, body) ∈ numberBodies b n bodies) :
    a = b ∧ ∃ i, bodies[i]? = some body ∧ m = n + i := by
  induction bodies generalizing n with
  | nil => cases h
  | cons first rest ih =>
    rcases List.mem_cons.mp h with e | h
    · obtain ⟨hm, hrule⟩ := Prod.mk.inj e
      obtain ⟨ha, hbody⟩ := Prod.mk.inj hrule
      exact ⟨ha, 0, by rw [hbody, List.getElem?_cons_zero], hm⟩
    · obtain ⟨ha, i, hi, hm⟩ := ih h
      exact ⟨ha, i + 1, hi, by omega⟩

/-- Only listed variables have numbered rules. -/
theorem mem_of_mem_numberedFrom {n m : Nat} {order : List Symbol}
    (h : (m, a, body) ∈ g.numberedFrom n order) : a ∈ order := by
  induction order generalizing n with
  | nil => cases h
  | cons b rest ih =>
    rcases List.mem_append.mp h with h | h
    · exact List.mem_cons.mpr (.inl (mem_numberBodies h).1)
    · exact List.mem_cons_of_mem _ (ih h)

/-- The number of a listed rule is computed from the first number of its
variable, where no variable is listed twice. -/
theorem exists_find_of_mem_numberedFrom {n m : Nat} {order : List Symbol} (hn : order.Nodup)
    (h : (m, a, body) ∈ g.numberedFrom n order) :
    ∃ k i, SymbolTable.find (g.firstNumbersFrom n order) a = some k ∧
      (g.rulesOf a)[i]? = some body ∧ m = k + i := by
  induction order generalizing n with
  | nil => cases h
  | cons b rest ih =>
    obtain ⟨hb, hrest⟩ := List.nodup_cons.mp hn
    rw [firstNumbersFrom, SymbolTable.find]
    rcases List.mem_append.mp h with h | h
    · obtain ⟨rfl, i, hi, hm⟩ := mem_numberBodies h
      exact ⟨n, i, if_pos rfl, hi, hm⟩
    · have hne : b ≠ a := fun e => hb (e ▸ mem_of_mem_numberedFrom h)
      rw [if_neg hne]
      exact ih hrest h

/-- A rule is numbered exactly by the numbers computed for its alternatives. -/
theorem mem_numberedRules_iff {m : Nat} : (m, a, body) ∈ g.numberedRules ↔
    ∃ k i, g.firstNumber? a = some k ∧ (g.rulesOf a)[i]? = some body ∧ m = k + i := by
  constructor
  · exact exists_find_of_mem_numberedFrom g.nodup_displayOrder
  · rintro ⟨k, i, hk, hi, rfl⟩
    exact List.mem_of_find?_eq_some ((find?_numberedFrom hk).2 i body hi)

/-- The rule at a place has the number of the place. -/
theorem eq_succ_of_getElem? {n : Nat} {rule : Nat × Symbol × Body}
    (h : g.numberedRules[n]? = some rule) : rule.1 = n + 1 ∧ n < g.alternativeCount := by
  have hget : (g.numberedRules.map Prod.fst)[n]? = some rule.1 := by
    rw [List.getElem?_map, h, Option.map_some]
  rw [map_fst_numberedRules] at hget
  have hlt := (List.getElem?_eq_some_iff.mp hget).1
  rw [List.length_range'] at hlt
  rw [List.getElem?_range' hlt] at hget
  exact ⟨by have := Option.some.inj hget; omega, hlt⟩

/-- A numbered rule stands at the place of its number, which is not zero. -/
theorem getElem?_of_mem_numberedRules {rule : Nat × Symbol × Body} (h : rule ∈ g.numberedRules) :
    ∃ n, rule.1 = n + 1 ∧ g.numberedRules[n]? = some rule := by
  obtain ⟨n, hn⟩ := List.mem_iff_getElem?.mp h
  exact ⟨n, (eq_succ_of_getElem? hn).1, hn⟩

/-- Rules at a place are listed with its number. -/
theorem getElem?_numberedRules_iff {n : Nat} :
    g.numberedRules[n]? = some (n + 1, a, body) ↔ (n + 1, a, body) ∈ g.numberedRules := by
  refine ⟨fun h => List.mem_iff_getElem?.mpr ⟨n, h⟩, fun h => ?_⟩
  obtain ⟨m, hm, hget⟩ := getElem?_of_mem_numberedRules h
  have hsame : n = m := Nat.succ.inj hm
  rw [hsame] at hget ⊢
  exact hget

/-- The number of an alternative is computed from the first number of its
variable. -/
theorem ruleNumber_eq_ok_iff {i m : Nat} :
    g.ruleNumber a i = .ok (m : Int) ↔ ∃ k, g.firstNumber? a = some k ∧ m = k + i := by
  rw [ruleNumber]
  cases hk : g.firstNumber? a with
  | none =>
    refine ⟨fun h => ?_, fun ⟨k, h, _⟩ => ?_⟩
    · cases h
    · cases h
  | some k =>
    constructor
    · intro h
      have he : (k : Int) + i = m := Except.ok.inj h
      exact ⟨k, rfl, by omega⟩
    · rintro ⟨l, hl, hm⟩
      rw [← Option.some.inj hl] at hm
      rw [hm]
      exact congrArg Except.ok (Int.natCast_add k i).symm

/-- Different alternatives have different numbers. -/
theorem eq_of_ruleNumber_eq {b : Symbol} {i j m : Nat} (hi : i < (g.rulesOf a).length)
    (hj : j < (g.rulesOf b).length) (ha : g.ruleNumber a i = .ok (m : Int))
    (hb : g.ruleNumber b j = .ok (m : Int)) : a = b ∧ i = j := by
  obtain ⟨k, hk, hm⟩ := ruleNumber_eq_ok_iff.mp ha
  obtain ⟨l, hl, hm'⟩ := ruleNumber_eq_ok_iff.mp hb
  have hfirst : (m, a, (g.rulesOf a)[i]) ∈ g.numberedRules :=
    mem_numberedRules_iff.mpr ⟨k, i, hk, List.getElem?_eq_getElem hi, hm⟩
  have hsecond : (m, b, (g.rulesOf b)[j]) ∈ g.numberedRules :=
    mem_numberedRules_iff.mpr ⟨l, j, hl, List.getElem?_eq_getElem hj, hm'⟩
  -- both stand at the place of the number, so that they are rules of one variable
  obtain ⟨n, hn, hget⟩ := getElem?_of_mem_numberedRules hfirst
  obtain ⟨n', hn', hget'⟩ := getElem?_of_mem_numberedRules hsecond
  have hplace : n = n' := Nat.succ.inj (hn.symm.trans hn')
  rw [← hplace, hget] at hget'
  have hab : a = b := congrArg (fun rule => rule.2.1) (Option.some.inj hget')
  rw [← hab, hk] at hl
  have hkl : k = l := Option.some.inj hl
  exact ⟨hab, by omega⟩

/-- A rule stands at the place of a number exactly if the number is computed for an
alternative of its variable with the same symbols. -/
theorem getElem?_numberedRules_iff_ruleNumber {n : Nat} :
    g.numberedRules[n]? = some (n + 1, a, body) ↔ a ∈ g.vars ∧
      ∃ i : Nat, (g.rulesOf a)[i]? = some body ∧ g.ruleNumber a i = .ok (n + 1 : Nat) := by
  rw [getElem?_numberedRules_iff, mem_numberedRules_iff]
  constructor
  · rintro ⟨k, i, hk, hi, hm⟩
    exact ⟨mem_vars_of_mem_rulesOf (List.mem_of_getElem? hi), i, hi,
      ruleNumber_eq_ok_iff.mpr ⟨k, hk, hm⟩⟩
  · rintro ⟨-, i, hi, hnumber⟩
    obtain ⟨k, hk, hm⟩ := ruleNumber_eq_ok_iff.mp hnumber
    exact ⟨k, i, hk, hi, hm⟩

/-- Rule numbering is a bijection, whatever the grammar. -/
theorem numbers (g : Grammar) : g.Numbers where
  counted := map_fst_numberedRules g
  entry_iff := fun _ _ _ => getElem?_numberedRules_iff_ruleNumber
  unique := by
    intro n hn
    have hlength : g.numberedRules.length = g.alternativeCount := by
      have h := congrArg List.length (map_fst_numberedRules g)
      rwa [List.length_map, List.length_range'] at h
    obtain ⟨⟨m, a, body⟩, hget⟩ : ∃ rule, g.numberedRules[n]? = some rule :=
      ⟨_, List.getElem?_eq_getElem (hlength ▸ hn)⟩
    have hm : m = n + 1 := (eq_succ_of_getElem? hget).1
    rw [hm] at hget
    obtain ⟨ha, i, hi, hnumber⟩ := getElem?_numberedRules_iff_ruleNumber.mp hget
    have hlt := (List.getElem?_eq_some_iff.mp hi).1
    refine ⟨(a, i), ⟨ha, hlt, hnumber⟩, fun other ⟨_, hother, hsame⟩ => ?_⟩
    obtain ⟨he, hj⟩ := eq_of_ruleNumber_eq hother hlt hsame hnumber
    exact Prod.ext he hj
  defined := by
    intro a ha i hi
    obtain ⟨k, hk⟩ := Option.isSome_iff_exists.mp (isSome_firstNumber? ha)
    have hmem : (k + i, a, (g.rulesOf a)[i]) ∈ g.numberedRules :=
      mem_numberedRules_iff.mpr ⟨k, i, hk, List.getElem?_eq_getElem hi, rfl⟩
    obtain ⟨n, hn, hget⟩ := getElem?_of_mem_numberedRules hmem
    exact ⟨n, (eq_succ_of_getElem? hget).2, ruleNumber_eq_ok_iff.mpr ⟨k, hk, hn.symm⟩⟩
  entry_iff_of_nodup := by
    intro a hnodup n i body hi
    rw [getElem?_numberedRules_iff_ruleNumber]
    constructor
    · rintro ⟨-, j, hj, hnumber⟩
      have hlt := (List.getElem?_eq_some_iff.mp hi).1
      rw [(List.getElem?_inj hlt hnodup).mp (hi.trans hj.symm)]
      exact hnumber
    · exact fun hnumber => ⟨mem_vars_of_mem_rulesOf (List.mem_of_getElem? hi), i, hi, hnumber⟩

end PredictiveParsing.Grammar
