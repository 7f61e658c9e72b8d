import PredictiveParsing.Proofs.Descent.Acceptance

/-!
# Sentences are recognised

What a predictive parser says of a stream, without regard to the place of
an error: a parse that succeeds has read a sentence, and a parse of a sentence
does not fail, since a failure leaves no sentence that agrees with the tokens.
A parser is made wherever the grammar can be reduced.
-/

namespace PredictiveParsing.Parser

variable {settings : Settings} {g : Grammar} {units : Option UnitMap} {p : Parser}

/-- A parser is made for every reduced grammar and every stream with an end
marker. -/
theorem exists_make {r : Grammar} (h : g.reduce settings = .ok r) (units : Option UnitMap)
    (w : List Token) (marker : Token) :
    ∃ p, make settings g units (w ++ [marker]) = .ok p ∧ p.grammar = r := by
  have hsize : 0 < (w ++ [marker]).toArray.size := by
    rw [List.size_toArray, List.length_append, List.length_singleton]
    omega
  refine ⟨⟨settings, r, ActionTable.ofGrammar r, ⟨_, hsize⟩, units⟩, ?_, rfl⟩
  rw [make, TokenStream.ofList?, dif_pos hsize, h]

/-- Where a parse fails no sentence agrees with the tokens up to the rejected
one. -/
theorem Predictive.not_agrees_of_error (d : p.Predictive) {limit : Nat} {o : Outcome Unit}
    (ho : p.parseWithin limit = some o) {e : SyntaxError} (he : o.result = .error e) :
    ∃ s : ParseState, s.cursor < p.stream.size ∧
      ∀ y, Generates p.grammar.rulesOf [p.grammar.start] y → ¬p.Agrees s y := by
  obtain ⟨last, result, hends, heq⟩ := ends_of_parseWithin ho
  refine ⟨last, ?_⟩
  cases result with
  | error cause =>
    obtain ⟨hcursor, -, hnone⟩ := d.of_ends_error hends
    exact ⟨hcursor, hnone⟩
  | ok root =>
    obtain ⟨hcursor, htracks, hanticipates⟩ := d.of_ends_ok hends
    refine ⟨hcursor, fun y hy hagrees => ?_⟩
    obtain ⟨z, hz, hyields⟩ := hanticipates y hy hagrees
    have hahead := htracks.unit_current hagrees hz
    cases hyields
    rw [heq, conclude] at he
    dsimp only at he
    split at he
    · next hunit => exact hunit.2 hahead
    · cases he

/-- What a parse that succeeds has read is a sentence, with the units of all
tokens before the marker. -/
theorem Made.exists_sentence {w : List Token} {marker : Token}
    (hp : Made settings g units (w ++ [marker]) p) (d : p.Predictive)
    (hdemand : settings.requireEndOfStream = true)
    (hw : ∀ token ∈ w, token.unit ≠ marker.unit) {limit : Nat} {o : Outcome Unit}
    (ho : p.parseWithin limit = some o) (hok : o.result = .ok ()) :
    ∃ y, Generates p.grammar.rulesOf [p.grammar.start] y ∧
      y.map p.unitOf = w.map Token.unit := by
  obtain ⟨last, result, hends, heq⟩ := ends_of_parseWithin ho
  rw [heq, conclude] at hok
  cases result with
  | error cause => cases hok
  | ok root =>
    obtain ⟨hcursor, htracks, -⟩ := d.of_ends_ok hends
    dsimp only at hok
    split at hok
    · cases hok
    · next hunit =>
      have hcurrent : (p.current last).unit = p.stream.endUnit := by
        by_contra hne
        exact hunit ⟨hp.settings_eq ▸ hdemand, hne⟩
      exact ⟨last.tree.matched, htracks.generates d.closed,
        hp.map_unit_eq hw hcursor htracks hcurrent⟩

/-- A predictive parser halts, and it succeeds exactly on the units of
sentences. -/
theorem Made.parse_ok_iff {w : List Token} {marker : Token}
    (hp : Made settings g units (w ++ [marker]) p) (d : p.Predictive)
    (hdemand : settings.requireEndOfStream = true)
    (hw : ∀ token ∈ w, token.unit ≠ marker.unit) :
    ∃ o, p.parse = some o ∧
      (o.result = .ok () ↔ ∃ y, Generates p.grammar.rulesOf [p.grammar.start] y ∧
        y.map p.unitOf = w.map Token.unit) := by
  obtain ⟨o, ho⟩ := d.exists_parse
  refine ⟨o, ho, hp.exists_sentence d hdemand hw ho, fun ⟨y, hy, hunits⟩ => ?_⟩
  cases hresult : o.result with
  | ok value => rfl
  | error e =>
    obtain ⟨s, hcursor, hnone⟩ := d.not_agrees_of_error ho hresult
    exact absurd (hp.agrees_of_map_eq hcursor hunits) (hnone y hy)

end PredictiveParsing.Parser
