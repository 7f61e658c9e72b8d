import PredictiveParsing.Proofs.Descent.Replay
import PredictiveParsing.Proofs.Lookahead.Completeness

/-!
# A descent anticipates every sentence that can still come

Where the next unit determines the alternative, a descent is never ahead of
the input: every sentence that agrees with the tokens up to the current one
consists of the matched terminals and a string that the unread symbols yield.
So a rejected token agrees with no sentence, and a token behind everything
that was to be read agrees with none either.
-/

namespace PredictiveParsing.Parser

variable {p : Parser} {s : ParseState} {x : Symbol} {levels : List Body}

/-- A stack of frames each of which reads an alternative of the symbol in
front of the frame below. -/
inductive Underway (p : Parser) : List Frame → Prop
  /-- Everything is read. -/
  | done : Underway p []
  /-- A part of an alternative is read, and its owner is in progress. -/
  | reading {node : Nat} {b : Symbol} {read unread : Body} {below : List Frame}
      (mem : read ++ unread ∈ p.grammar.rulesOf b)
      (outer : p.grammar.Nested b (below.map Frame.unread)) :
      Underway p (⟨node, unread⟩ :: below)

/-- A symbol that is read leaves its frame under way. -/
theorem Underway.advance {node : Nat} {unread : Body} {below : List Frame}
    (h : p.Underway (⟨node, x :: unread⟩ :: below)) : p.Underway (⟨node, unread⟩ :: below) := by
  cases h with
  | @reading _ b read _ _ mem outer =>
    have hmem : (read ++ [x]) ++ unread ∈ p.grammar.rulesOf b := by
      rw [List.append_assoc]
      exact mem
    exact .reading hmem outer

/-- The symbol in front of a frame is in progress. -/
theorem Underway.nested {node : Nat} {unread : Body} {below : List Frame}
    (h : p.Underway (⟨node, x :: unread⟩ :: below)) :
    p.grammar.Nested x (unread :: below.map Frame.unread) := by
  cases h with
  | reading mem outer => exact .inside mem outer

/-- A stack whose frames were entered one inside the other is under way. -/
theorem underway_of_nested {b : Symbol} {stack : List Frame}
    (h : p.grammar.Nested b (stack.map Frame.unread)) : p.Underway stack := by
  cases stack with
  | nil => exact .done
  | cons frame below =>
    obtain ⟨node, unread⟩ := frame
    cases h with
    | @inside c _ read _ _ mem outer =>
      have hmem : (read ++ [b]) ++ unread ∈ p.grammar.rulesOf c := by
        rw [List.append_assoc]
        exact mem
      exact .reading hmem outer

/-- Every stack that is visited is under way. -/
theorem underway_of_visits {stack : List Frame} (h : p.Visits s stack) : p.Underway stack := by
  refine @Visits.invariant p (fun _ stack => p.Underway stack) ?_ ?_ s stack h
  · intro k body hc _
    have hmem : [] ++ body ∈ p.grammar.rulesOf p.grammar.start := mem_rulesOf_of_chosenRule hc
    exact .reading hmem .start
  · intro s stack next frames _ hs hm
    cases hm with
    | leave =>
      cases hs with
      | reading mem outer => exact underway_of_nested outer
    | vanish mem chosen => exact hs.advance
    | @enter node k x body unread below mem chosen ne =>
      have hmem : [] ++ body ∈ p.grammar.rulesOf x := mem_rulesOf_of_chosenRule chosen
      exact .reading hmem hs.nested
    | take notMem unit => exact hs.advance

/-- A symbol that a frame has in front stands in a body. -/
theorem Underway.occurs {node : Nat} {unread : Body} {below : List Frame}
    (h : p.Underway (⟨node, x :: unread⟩ :: below)) : p.grammar.Occurs x := by
  cases h with
  | @reading _ b read _ _ mem _ =>
    exact ⟨b, _, mem, List.mem_append_right _ List.mem_cons_self⟩

/-- A token of another unit than the end marker stands before the last
one. -/
theorem cursor_lt_of_unit_ne {i : Nat} (h : (p.stream.token i).unit ≠ p.stream.endUnit) :
    i + 1 < p.stream.size := by
  by_contra hge
  have hlast : p.stream.token i = p.stream.last := TokenStream.token_eq_last (by omega)
  exact h (by rw [hlast, TokenStream.endUnit])

/-- Where no terminal of a body has the unit of the end marker, the cursor
stays in the stream. -/
theorem Visits.cursor_lt (hg : p.grammar.Closed)
    (hend : ∀ t, t.isTerminal = true → p.grammar.Occurs t → p.unitOf t ≠ p.stream.endUnit)
    {stack : List Frame} (h : p.Visits s stack) : s.cursor < p.stream.size := by
  refine @Visits.invariant p (fun s _ => s.cursor < p.stream.size) ?_ ?_ s stack h
  · intro k body _ _
    exact p.stream.nonempty
  · intro s stack next frames hv hs hm
    cases hm with
    | leave => exact hs
    | vanish => exact hs
    | enter => exact hs
    | @take node x unread below notMem unit =>
      have hterminal := (tracks_of_visits hg hv).isTerminal notMem
      have hne := hend x hterminal (underway_of_visits hv).occurs
      rw [← unit] at hne
      exact cursor_lt_of_unit_ne hne

/-- The cursor stays in the stream. -/
theorem Predictive.cursor_lt (d : p.Predictive) {stack : List Frame}
    (h : p.Visits s stack) : s.cursor < p.stream.size :=
  h.cursor_lt d.closed d.unit_ne_end

/-- A sentence agrees with the tokens up to the current one, where the end
marker comes behind the sentence. -/
def Agrees (p : Parser) (s : ParseState) (y : List Symbol) : Prop :=
  ∀ i ≤ s.cursor, (y.map p.unitOf ++ [p.stream.endUnit])[i]? = some (p.stream.token i).unit

/-- Every sentence that agrees with the tokens so far consists of the matched
terminals and what the unread symbols yield. -/
def Anticipates (p : Parser) (s : ParseState) (unread : List Symbol) : Prop :=
  ∀ y, Generates p.grammar.rulesOf [p.grammar.start] y → p.Agrees s y →
    ∃ z, y = s.tree.matched ++ z ∧ Yields p.grammar.rulesOf unread z

/-- At the beginning nothing is matched, and the start symbol yields all
sentences. -/
theorem anticipates_start (hg : p.grammar.Closed) : p.Anticipates {} [p.grammar.start] :=
  fun y hy _ => ⟨y, rfl,
    (generates_nonterminal (hg.vars_nonterminal _ p.grammar.valid.start_mem)).mp hy⟩

/-- As many terminals are matched as the cursor tells. -/
theorem Tracks.length_matched {unread : List Symbol} (h : p.Tracks s unread) :
    s.tree.matched.length = s.cursor := by
  have hlength := congrArg List.length h.units
  rw [List.length_map, List.length_map, List.length_range] at hlength
  exact hlength

/-- The current token has the unit that comes next in a sentence that agrees
with it. -/
theorem Tracks.unit_current {unread y z : List Symbol} (h : p.Tracks s unread)
    (hy : p.Agrees s y) (hz : y = s.tree.matched ++ z) :
    (p.current s).unit = p.unitAhead z := by
  have hcurrent := hy s.cursor (Nat.le_refl _)
  have hlength : (s.tree.matched.map p.unitOf).length = s.cursor := by
    rw [List.length_map, h.length_matched]
  rw [hz, List.map_append, List.append_assoc,
    List.getElem?_append_right (Nat.le_of_eq hlength), hlength, Nat.sub_self] at hcurrent
  cases z with
  | nil => exact (Option.some.inj hcurrent).symm
  | cons t z => exact (Option.some.inj hcurrent).symm

/-- The alternative that an agreeing sentence uses for a variable is the
selected one. -/
theorem Anticipates.select (d : p.Predictive) (ht : p.Tracks s (x :: levels.flatten))
    (h : p.Anticipates s (x :: levels.flatten)) (hn : p.grammar.Nested x levels)
    (hx : x ∈ p.grammar.vars) {y : List Symbol}
    (hy : Generates p.grammar.rulesOf [p.grammar.start] y) (hagrees : p.Agrees s y) :
    ∃ i body own after, p.select x (p.current s).unit = some i ∧
      (p.grammar.rulesOf x)[i]? = some body ∧ y = s.tree.matched ++ (own ++ after) ∧
      Yields p.grammar.rulesOf body own ∧ Yields p.grammar.rulesOf levels.flatten after := by
  obtain ⟨z, hz, hyields⟩ := h y hy hagrees
  obtain ⟨own, after, rfl, hown, hafter⟩ := hyields.uncons
  obtain ⟨body, hmem, hyield⟩ := (d.closed.yields_iff hx).mp hown
  obtain ⟨i, hi, hget⟩ := d.select_of_yields hn hmem hyield hafter
  rw [← ht.unit_current hagrees hz] at hi
  exact ⟨i, body, own, after, hi, hget, hz, hyield, hafter⟩

/-- A variable that is replaced by its chosen rule leaves every agreeing
sentence anticipated. -/
theorem Anticipates.expand (d : p.Predictive) (ht : p.Tracks s (x :: levels.flatten))
    (h : p.Anticipates s (x :: levels.flatten)) (hn : p.grammar.Nested x levels)
    {k : Nat} {body : Body} (hc : p.chosenRule x s = some (k, body)) (next : ParseState)
    (hcursor : next.cursor = s.cursor) (hmatched : next.tree.matched = s.tree.matched) :
    p.Anticipates next (Body.spelled body ++ levels.flatten) := by
  intro y hy hagrees
  obtain ⟨i, hi, hget, -⟩ := chosenRule_eq_some hc
  have hx := Grammar.mem_vars_of_mem_rulesOf (List.mem_of_getElem? hget)
  have hs : p.Agrees s y := fun j hj => hagrees j (by omega)
  obtain ⟨j, used, own, after, hj, hused, hy', hown, hafter⟩ := h.select d ht hn hx hy hs
  have hij : i = j := Option.some.inj (hi.symm.trans hj)
  have heq : body = used := by
    rw [hij, hused] at hget
    exact (Option.some.inj hget).symm
  rw [hmatched, heq]
  exact ⟨own ++ after, hy', (yields_spelled.mpr hown).append hafter⟩

/-- A terminal that takes the current token leaves every agreeing sentence
anticipated. -/
theorem Anticipates.take {unread : List Symbol} {node : Nat} (h : p.Anticipates s (x :: unread))
    (hx : x.isTerminal = true) :
    p.Anticipates
      { s with cursor := s.cursor + 1, tree := s.tree.grow node x (some (p.current s)) }
      unread := by
  intro y hy hagrees
  have hmatched := ParseTree.matched_grow_some s.tree node x (p.current s)
  have hs : p.Agrees s y := fun j hj => hagrees j (Nat.le_succ_of_le hj)
  obtain ⟨z, hz, hyields⟩ := h y hy hs
  cases hyields with
  | epsilon => cases hx
  | expand => cases hx
  | @terminal t _ rest tail =>
    refine ⟨rest, ?_, tail⟩
    dsimp only
    rw [hmatched, hz, List.append_assoc, List.singleton_append]

/-- Every configuration that is visited anticipates the agreeing
sentences. -/
theorem Predictive.anticipates (d : p.Predictive) {stack : List Frame}
    (h : p.Visits s stack) : p.Anticipates s (stack.flatMap Frame.unread) := by
  refine @Visits.invariant p (fun s stack => p.Anticipates s (stack.flatMap Frame.unread))
    ?_ ?_ s stack h
  · intro k body hc hb
    have hopen : p.Anticipates (p.openedState k) (Body.spelled body ++ List.flatten []) :=
      (anticipates_start d.closed).expand d (tracks_start p) .start hc _ rfl rfl
    rw [Grammar.spelled_of_mem_rulesOf (mem_rulesOf_of_chosenRule hc) hb] at hopen
    exact hopen
  · intro s stack next frames hv hs hm
    have htracks := tracks_of_visits d.closed hv
    have hunderway := underway_of_visits hv
    cases hm with
    | leave => exact hs
    | vanish mem chosen =>
      exact hs.expand d htracks hunderway.nested chosen _ rfl rfl
    | @enter node k x body unread below mem chosen ne =>
      have hnext := hs.expand d htracks hunderway.nested chosen
        { s with trace := s.trace ++ [k], tree := s.tree.grow node x none } rfl
        (s.tree.matched_grow_none node x)
      rw [Grammar.spelled_of_mem_rulesOf (mem_rulesOf_of_chosenRule chosen) ne] at hnext
      exact hnext
    | take notMem unit => exact hs.take (htracks.isTerminal notMem)

end PredictiveParsing.Parser
