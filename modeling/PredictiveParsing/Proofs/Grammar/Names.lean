import PredictiveParsing.Grammar.Names
import PredictiveParsing.Proofs.SymbolTable

/-!
# Grammars given by names are closed

A name of a variable denotes that variable wherever it stands, and no other
name denotes a nonterminal. So a grammar that is given by names is closed,
whatever the names are.
-/

namespace PredictiveParsing

/-- A result of which something was computed is there. -/
theorem exists_ok_of_toOption {ε α β : Type} {result : Except ε α} {f : α → β} {b : β}
    (h : result.toOption.map f = some b) : ∃ a, result = .ok a ∧ f a = b := by
  cases result with
  | error e => cases h
  | ok a => exact ⟨a, rfl, Option.some.inj h⟩

/-- What succeeds in two steps succeeds in each of them. -/
theorem exists_ok_of_bind {ε α β : Type} {result : Except ε α} {f : α → Except ε β} {b : β}
    (h : result >>= f = .ok b) : ∃ a, result = .ok a ∧ f a = .ok b := by
  cases result with
  | error e => cases h
  | ok a => exact ⟨a, rfl, h⟩

/-- Without a result there is an error. -/
theorem exists_error_of_isNone {ε α : Type} {result : Except ε α}
    (h : result.toOption.isNone = true) : ∃ e, result = .error e := by
  cases result with
  | error e => exact ⟨e, rfl⟩
  | ok a => cases h

namespace SymbolTable

variable {α : Type}

/-- A table made of entries has no other values than they have. -/
theorem exists_mem_of_get?_ofList {entries : List (Symbol × α)} {key : Symbol} {value : α}
    (h : (ofList entries).get? key = some value) : (key, value) ∈ entries := by
  have grow : ∀ (rest : List (Symbol × α)) (t : SymbolTable α),
      (rest.foldl (fun t entry => t.set entry.1 entry.2) t).get? key = some value →
        t.get? key = some value ∨ (key, value) ∈ rest := by
    intro rest
    induction rest with
    | nil => exact fun t ht => .inl ht
    | cons entry rest ih =>
      intro t ht
      rcases ih _ ht with hset | hmem
      · rw [get?_set] at hset
        split at hset
        · next e =>
          have hv := Option.some.inj hset
          exact .inr (List.mem_cons.mpr (.inl (by rw [← e, ← hv])))
        · exact .inl hset
      · exact .inr (List.mem_cons_of_mem _ hmem)
  rcases grow entries empty h with hempty | hmem
  · cases hempty
  · exact hmem

end SymbolTable

namespace Grammar

/-- A name denotes a nonterminal only if it is a variable's. -/
theorem mem_of_isNonterminal_symbolOfName {vars : List String} {name : String}
    (h : (symbolOfName vars name).isNonterminal = true) :
    name ∈ vars ∧ symbolOfName vars name = .nonterminal name := by
  unfold symbolOfName at h ⊢
  split
  · next hv => exact ⟨hv, rfl⟩
  · next hv =>
    rw [if_neg hv] at h
    split at h <;> cases h

/-- A grammar described by names is closed. -/
theorem closed_of_componentsOfNames {g : Grammar} {vars terminals : List String}
    {rules : List (String × List (List String))} {start : String} {order : Option (List String)}
    (h : g.toComponents = componentsOfNames vars terminals rules start order) : g.Closed := by
  have hv : g.vars = SymbolSet.ofList (vars.map .nonterminal) := congrArg Components.vars h
  have ht : g.terminals = SymbolSet.ofList
      ((terminals.filter fun name => decide (name ∉ epsilonNames)).map .terminal) :=
    congrArg Components.terminals h
  have hr := congrArg Components.rules h
  refine ⟨?_, ?_, ?_⟩
  · intro a ha
    rw [hv, SymbolSet.mem_ofList] at ha
    obtain ⟨name, -, rfl⟩ := List.mem_map.mp ha
    rfl
  · intro a ha
    rw [ht, SymbolSet.mem_ofList] at ha
    obtain ⟨name, -, rfl⟩ := List.mem_map.mp ha
    rfl
  · intro a body hb x hx hk
    unfold rulesOf at hb
    rw [hr] at hb
    cases hget : (componentsOfNames vars terminals rules start order).rules.get? a with
    | none =>
      rw [hget] at hb
      exact absurd hb List.not_mem_nil
    | some bodies =>
      rw [hget] at hb
      obtain ⟨rule, -, hrule⟩ := List.mem_map.mp (SymbolTable.exists_mem_of_get?_ofList hget)
      have hb' : body ∈ bodies := hb
      rw [← (Prod.mk.inj hrule).2] at hb'
      obtain ⟨names, -, rfl⟩ := List.mem_map.mp hb'
      obtain ⟨name, -, rfl⟩ := List.mem_map.mp hx
      obtain ⟨hname, hsymbol⟩ := mem_of_isNonterminal_symbolOfName hk
      rw [hsymbol, hv, SymbolSet.mem_ofList]
      exact List.mem_map_of_mem hname

/-- A checked grammar of names is closed. -/
theorem closed_ofNames {g : Grammar} {vars terminals : List String}
    {rules : List (String × List (List String))} {start : String} {order : Option (List String)}
    (h : ofNames vars terminals rules start order = .ok g) : g.Closed :=
  closed_of_componentsOfNames (Components.check_eq_ok h)

/-- A small grammar, of sums of `x` with the sign to the right of a sum. -/
def sums : Grammar :=
  ⟨componentsOfNames ["E"] ["+", "x"] [("E", [["E", "+", "x"], ["x"]])] "E" none,
    by decide +kernel⟩

theorem sums_closed : sums.Closed := closed_of_componentsOfNames rfl

/-- Sums that never come to an end. -/
def endlessSums : Grammar :=
  ⟨componentsOfNames ["E"] ["+", "x"] [("E", [["E", "+", "x"]])] "E" none, by decide +kernel⟩

theorem endlessSums_closed : endlessSums.Closed := closed_of_componentsOfNames rfl

/-- Conditionals that may have a label and may have an else part. -/
def labelledConditionals : Grammar :=
  ⟨componentsOfNames ["P", "S", "L", "E"] ["label", "if", "act", "else"]
    [("P", [["S"]]), ("S", [["L", "if", "S", "E"], ["act"]]), ("L", [["label"], ["epsilon"]]),
      ("E", [["else", "S"], ["epsilon"]])] "P" none,
    by decide +kernel⟩

theorem labelledConditionals_closed : labelledConditionals.Closed :=
  closed_of_componentsOfNames rfl

end Grammar

end PredictiveParsing
