import PredictiveParsing.Proofs.Reduction.Useful

/-!
# What is useful

A symbol is useful when it stands in a form that is derived from the start
symbol and derives a string of declared terminals. The productive variables
that are found are those that yield such a string: whatever yields one does
so over productive symbols only, and over productive symbols only declared
terminals are yielded. The accessible symbols that are found are those that
are reached from the start symbol through bodies. A symbol is useful exactly
if it is reached through productions over productive symbols, and the start
symbol is productive.
-/

namespace PredictiveParsing

/-- The symbols that are reached from a symbol through bodies. -/
inductive Reaches (P : Productions) (start : Symbol) : Symbol → Prop
  /-- The symbol itself is reached. -/
  | self : Reaches P start start
  /-- What stands in a body of a symbol that is reached is reached. -/
  | body {a x : Symbol} {body : Body} (owner : Reaches P start a) (mem : body ∈ P a)
      (inside : x ∈ body) : Reaches P start x

section

variable {P Q : Productions} {start x : Symbol}

/-- Where the bodies of reached symbols are found again, the symbols are
reached again. -/
theorem Reaches.imp (h : ∀ a, Reaches P start a → ∀ body ∈ P a, body ∈ Q a)
    (hx : Reaches P start x) : Reaches Q start x := by
  induction hx with
  | self => exact .self
  | body owner mem inside ih => exact .body ih (h _ owner _ mem) inside

/-- With more alternatives no less is derived. -/
theorem Derives.mono (h : ∀ a, ∀ body ∈ P a, body ∈ Q a) {first form : List Symbol}
    (hd : Derives P first form) : Derives Q first form := by
  refine Relation.ReflTransGen.mono (fun _ _ step => ?_) _ _ hd
  cases step with
  | apply left right mem => exact .apply left right (h _ _ mem)

/-- Steps do not bring the empty string into a form. -/
theorem epsilon_notMem_of_derives {first form : List Symbol} (hfirst : .epsilon ∉ first)
    (h : Derives P first form) : .epsilon ∉ form := by
  induction h with
  | refl => exact hfirst
  | tail _ step ih =>
    cases step with
    | apply left right mem =>
      rw [List.mem_append, List.mem_append]
      intro he
      rcases he with he | he | he
      · exact ih (List.mem_append_left _ he)
      · exact Body.epsilon_notMem_spelled _ he
      · exact ih (List.mem_append_right _ (List.mem_cons_of_mem _ he))

/-- The symbols of a derived form are reached. -/
theorem reaches_of_derives {form : List Symbol} (h : Derives P [start] form) :
    ∀ x ∈ form, Reaches P start x := by
  induction h with
  | refl =>
    intro x hx
    rw [List.mem_singleton.mp hx]
    exact .self
  | tail _ step ih =>
    cases step with
    | apply left right mem =>
      intro x hx
      rw [List.mem_append, List.mem_append] at hx
      rcases hx with hx | hx | hx
      · exact ih x (List.mem_append_left _ hx)
      · have howner := ih _ (List.mem_append_right _ List.mem_cons_self)
        exact .body howner mem (Body.mem_spelled.mp hx).1
      · exact ih x (List.mem_append_right _ (List.mem_cons_of_mem _ hx))

/-- A symbol that is reached stands in a derived form, unless it is the empty
string. -/
theorem derives_of_reaches (howner : ∀ a, ∀ body ∈ P a, a.isNonterminal = true)
    (hx : Reaches P start x) (hne : x ≠ .epsilon) :
    ∃ left right, Derives P [start] (left ++ x :: right) := by
  induction hx with
  | self => exact ⟨[], [], .refl⟩
  | @body a x body _ mem inside ih =>
    cases a with
    | epsilon => cases howner _ _ mem
    | terminal t => cases howner _ _ mem
    | nonterminal n =>
      obtain ⟨left, right, hd⟩ := ih (by simp)
      obtain ⟨before, after, he⟩ := List.append_of_mem (Body.mem_spelled.mpr ⟨inside, hne⟩)
      have hnext : Derives P [start] (left ++ (Body.spelled body ++ right)) :=
        hd.tail (.apply left right mem)
      refine ⟨left ++ before, after ++ right, ?_⟩
      simpa only [he, List.append_assoc, List.cons_append] using hnext

/-- Over bodies whose terminals belong to a set, a form whose terminals do
yields terminals of the set. -/
theorem Yields.mem_of_terminals {T : SymbolSet}
    (h : ∀ a, ∀ body ∈ P a, ∀ y ∈ body, y.isTerminal = true → y ∈ T) {form w : List Symbol}
    (hw : Yields P form w) (hform : ∀ y ∈ form, y.isTerminal = true → y ∈ T) :
    ∀ t ∈ w, t ∈ T := by
  induction hw with
  | nil => exact fun t ht => absurd ht List.not_mem_nil
  | epsilon _ ih => exact ih fun y hy => hform y (List.mem_cons_of_mem _ hy)
  | terminal _ ih =>
    intro t ht
    rcases List.mem_cons.mp ht with e | ht
    · rw [e]
      exact hform _ List.mem_cons_self rfl
    · exact ih (fun y hy => hform y (List.mem_cons_of_mem _ hy)) t ht
  | expand mem _ _ ihu ihv =>
    intro t ht
    rcases List.mem_append.mp ht with ht | ht
    · exact ihu (h _ _ mem) t ht
    · exact ihv (fun y hy => hform y (List.mem_cons_of_mem _ hy)) t ht

end

namespace Grammar

/-- A string of declared terminals. -/
def Declares (g : Grammar) (w : List Symbol) : Prop := ∀ t ∈ w, t ∈ g.terminals

/-- The strings of declared terminals that are derived from the start
symbol. -/
def Sentence (g : Grammar) (w : List Symbol) : Prop :=
  Derives g.rulesOf [g.start] w ∧ g.Declares w

/-- The symbols that stand in a derivation of a sentence. -/
def Useful (g : Grammar) (x : Symbol) : Prop :=
  ∃ left right w, Derives g.rulesOf [g.start] (left ++ x :: right) ∧
    Derives g.rulesOf (left ++ x :: right) w ∧ g.Declares w

/-- The rules whose owner is useful, as all symbols of the body are, the empty
string aside. -/
def UsefulRule (g : Grammar) (rule : Symbol × Body) : Prop :=
  g.Useful rule.1 ∧ ∀ x ∈ rule.2, x ≠ .epsilon → g.Useful x

section

variable {g : Grammar} {form w : List Symbol} {a x : Symbol}

/-- Declared terminals make up a string of terminals. -/
theorem Closed.isWord_of_declares (hg : g.Closed) (h : g.Declares w) : IsWord w :=
  fun t ht => hg.terminals_terminal t (h t ht)

/-- A variable is not the empty string. -/
theorem Closed.ne_epsilon_of_mem_vars (hg : g.Closed) (h : x ∈ g.vars) : x ≠ .epsilon := by
  rintro rfl
  exact absurd (hg.vars_nonterminal _ h) Bool.false_ne_true

/-- The forms that are derived from the start symbol are free of the empty
string. -/
theorem Closed.epsilon_notMem_of_start (hg : g.Closed) {form : List Symbol}
    (h : Derives g.rulesOf [g.start] form) : .epsilon ∉ form := by
  refine epsilon_notMem_of_derives (fun he => ?_) h
  exact hg.ne_epsilon_of_mem_vars g.valid.start_mem (List.mem_singleton.mp he).symm

/-- A declared terminal is not the empty string. -/
theorem Closed.ne_epsilon_of_mem_terminals (hg : g.Closed) (h : x ∈ g.terminals) :
    x ≠ .epsilon := by
  rintro rfl
  exact absurd (hg.terminals_terminal _ h) Bool.false_ne_true

/-- A sentence is what the start symbol yields. -/
theorem Closed.sentence_iff (hg : g.Closed) :
    g.Sentence w ↔ Yields g.rulesOf [g.start] w ∧ g.Declares w := by
  have hk := hg.vars_nonterminal g.start g.valid.start_mem
  rw [← generates_nonterminal hk]
  constructor
  · intro ⟨hd, hw⟩
    exact ⟨⟨hd, hg.isWord_of_declares hw⟩, hw⟩
  · intro ⟨hd, hw⟩
    exact ⟨hd.1, hw⟩

/-- The steps towards the productive variables end within their limit. -/
theorem productiveStep_productive (g : Grammar) :
    g.productiveStep g.productive = g.productive := by
  have grows : ∀ s : SymbolSet, s ⊆ g.productiveStep s :=
    fun s x hx => mem_productiveStep.mpr (.inl hx)
  let inside : SymbolSet → Prop := fun s => ∀ x ∈ s, x ∈ g.rules.keys
  refine @step_stabilize _ _ _ inside SymbolSet.size g.rules.keys.length ?_ ?_ ?_ _ _ ?_ ?_
  · intro s hs x hx
    rcases mem_productiveStep.mp hx with hx | ⟨body, hb, -⟩
    · exact hs x hx
    · obtain ⟨bodies, hget, -⟩ := Components.mem_rulesOf_iff.mp hb
      exact SymbolTable.mem_keys_iff.mpr ⟨bodies, hget⟩
  · intro s _ hne
    exact SymbolSet.size_lt_of_subset (grows s) (Ne.symm hne)
  · intro s hs
    exact SymbolSet.size_le_length hs
  · exact fun x hx => absurd hx (SymbolSet.not_mem_empty x)
  · rw [SymbolTable.keys, List.length_map]
    omega

/-- A variable with an alternative over productive symbols is productive. -/
theorem mem_productive_of_body {body : Body} (hb : body ∈ g.rulesOf a)
    (h : ∀ y ∈ body, y ∈ g.producing g.productive) : a ∈ g.productive := by
  rw [← productiveStep_productive]
  exact mem_productiveStep.mpr (.inr ⟨body, hb, h⟩)

/-- A form that yields a string of declared terminals is made of productive
symbols, and yields the string over productive symbols. -/
theorem yields_knownProductions (h : Yields g.rulesOf form w) (hw : g.Declares w) :
    (∀ x ∈ form, x ∈ g.producing g.productive) ∧
      Yields (g.knownProductions g.productive) form w := by
  induction h with
  | nil => exact ⟨fun x hx => absurd hx List.not_mem_nil, .nil⟩
  | epsilon _ ih =>
    obtain ⟨hrest, hy⟩ := ih hw
    exact ⟨List.forall_mem_cons.mpr ⟨mem_producing.mpr (.inl rfl), hrest⟩, .epsilon hy⟩
  | terminal _ ih =>
    obtain ⟨ht, hw⟩ := List.forall_mem_cons.mp hw
    obtain ⟨hrest, hy⟩ := ih hw
    exact ⟨List.forall_mem_cons.mpr ⟨mem_producing.mpr (.inr (.inl ht)), hrest⟩, .terminal hy⟩
  | expand mem _ _ ihu ihv =>
    obtain ⟨hu, hv⟩ := List.forall_mem_append.mp hw
    obtain ⟨hbody, hyu⟩ := ihu hu
    obtain ⟨hrest, hyv⟩ := ihv hv
    have hn := mem_productive_of_body mem hbody
    refine ⟨List.forall_mem_cons.mpr ⟨mem_producing.mpr (.inr (.inr hn)), hrest⟩, ?_⟩
    exact .expand (mem_knownProductions.mpr ⟨hn, mem, hbody⟩) hyu hyv

/-- A terminal that is productive is declared. -/
theorem Closed.mem_terminals_of_producing (hg : g.Closed) (hx : x ∈ g.producing g.productive)
    (hk : x.isTerminal = true) : x ∈ g.terminals := by
  rcases mem_producing.mp hx with e | ht | hp
  · rw [e] at hk
    cases hk
  · exact ht
  · exact absurd (hg.productiveSoFar x hp).1 (hg.notMem_vars_of_isTerminal hk)

/-- A nonterminal that is productive is found to be so. -/
theorem Closed.mem_productive_of_producing (hg : g.Closed) (hx : x ∈ g.producing g.productive)
    (hk : x.isNonterminal = true) : x ∈ g.productive := by
  rcases mem_producing.mp hx with e | ht | hp
  · rw [e] at hk
    cases hk
  · have hterminal := hg.terminals_terminal x ht
    cases x with
    | nonterminal n => cases hterminal
    | epsilon => cases hk
    | terminal t => cases hk
  · exact hp

/-- Over productive symbols only declared terminals are yielded. -/
theorem Closed.declares_of_knownProductions (hg : g.Closed)
    (hform : ∀ y ∈ form, y ∈ g.producing g.productive)
    (h : Yields (g.knownProductions g.productive) form w) : g.Declares w := by
  refine h.mem_of_terminals ?_ fun y hy => hg.mem_terminals_of_producing (hform y hy)
  intro a body hb y hy
  exact hg.mem_terminals_of_producing ((mem_knownProductions.mp hb).2.2 y hy)

/-- The forms of productive symbols are those that yield a string of declared
terminals. -/
theorem Closed.producing_iff_exists_yields (hg : g.Closed) :
    (∀ x ∈ form, x ∈ g.producing g.productive) ↔ ∃ w, Yields g.rulesOf form w ∧ g.Declares w := by
  constructor
  · intro hform
    have hsymbols : ∀ x ∈ form, Productive (g.knownProductions g.productive) x := by
      intro x hx
      cases hk : x.isNonterminal with
      | true => exact (hg.productiveSoFar x (hg.mem_productive_of_producing (hform x hx) hk)).2
      | false => exact productive_of_not_nonterminal hk
    obtain ⟨w, hw⟩ := exists_yields hsymbols
    refine ⟨w, hw.mono fun a body hb => (mem_knownProductions.mp hb).2.1, ?_⟩
    exact hg.declares_of_knownProductions hform hw
  · intro ⟨w, hy, hw⟩
    exact (yields_knownProductions hy hw).1

/-- The productive variables are those that yield a string of declared
terminals. -/
theorem Closed.mem_productive_iff (hg : g.Closed) :
    a ∈ g.productive ↔ a ∈ g.vars ∧ ∃ w, Yields g.rulesOf [a] w ∧ g.Declares w := by
  rw [← hg.producing_iff_exists_yields, List.forall_mem_singleton]
  constructor
  · intro ha
    exact ⟨(hg.productiveSoFar a ha).1, mem_producing.mpr (.inr (.inr ha))⟩
  · intro ⟨ha, hp⟩
    exact hg.mem_productive_of_producing hp (hg.vars_nonterminal a ha)

/-- The start symbol is productive exactly if there is a sentence. -/
theorem Closed.start_mem_productive_iff (hg : g.Closed) :
    g.start ∈ g.productive ↔ ∃ w, g.Sentence w := by
  rw [hg.mem_productive_iff]
  constructor
  · rintro ⟨-, w, hy, hw⟩
    exact ⟨w, hg.sentence_iff.mpr ⟨hy, hw⟩⟩
  · intro ⟨w, hs⟩
    exact ⟨g.valid.start_mem, w, hg.sentence_iff.mp hs⟩

/-- The accessible symbols are those that are reached from the start
symbol. -/
theorem mem_accessible_iff : x ∈ g.accessible ↔ Reaches g.rulesOf g.start x := by
  constructor
  · -- every step adds reached symbols only
    have keep : ∀ s : SymbolSet, (∀ y ∈ s, Reaches g.rulesOf g.start y) →
        ∀ y ∈ g.accessibleStep s, Reaches g.rulesOf g.start y := by
      intro s hs y hy
      rcases mem_accessibleStep.mp hy with hy | ⟨a, ha, body, hb, hin⟩
      · exact hs y hy
      · exact .body (hs a ha) hb hin
    refine stabilize_induction keep (g.bodySymbols + 1) (SymbolSet.singleton g.start) ?_ x
    intro y hy
    rw [SymbolSet.mem_singleton.mp hy]
    exact .self
  · intro hx
    induction hx with
    | self =>
      have keep : ∀ s : SymbolSet, g.start ∈ s → g.start ∈ g.accessibleStep s :=
        fun s hs => mem_accessibleStep.mpr (.inl hs)
      exact stabilize_induction keep (g.bodySymbols + 1) _ (SymbolSet.mem_singleton.mpr rfl)
    | body _ mem inside ih => exact mem_accessible_of_mem_body ih mem inside

/-- A derivation of a form that yields a string of declared terminals goes
over productive symbols only. -/
theorem derives_knownProductions {first : List Symbol}
    (h : Derives g.rulesOf first form) (hy : Yields g.rulesOf form w) (hw : g.Declares w) :
    Derives (g.knownProductions g.productive) first form := by
  induction h using Relation.ReflTransGen.head_induction_on with
  | refl => exact .refl
  | head step hrest ih =>
    cases step with
    | @apply left right n body mem =>
      have hnext := (yields_knownProductions (hy.of_derives hrest) hw).1
      have hbody : ∀ y ∈ body, y ∈ g.producing g.productive := by
        intro y hin
        by_cases he : y = .epsilon
        · exact mem_producing.mpr (.inl he)
        · have hspelled := Body.mem_spelled.mpr ⟨hin, he⟩
          exact hnext y (List.mem_append_right _ (List.mem_append_left _ hspelled))
      have hmem := mem_knownProductions.mpr ⟨mem_productive_of_body mem hbody, mem, hbody⟩
      exact .head (.apply left right hmem) ih

/-- Productions over productive symbols reach productive symbols only. -/
theorem mem_producing_of_reaches (hstart : g.start ∈ g.productive)
    (hx : Reaches (g.knownProductions g.productive) g.start x) : x ∈ g.producing g.productive := by
  cases hx with
  | self => exact mem_producing.mpr (.inr (.inr hstart))
  | body _ mem inside => exact (mem_knownProductions.mp mem).2.2 x inside

/-- A symbol other than the empty string is useful exactly if the start symbol
is productive and the symbol is reached over productive symbols. -/
theorem Closed.useful_iff (hg : g.Closed) (hne : x ≠ .epsilon) :
    g.Useful x ↔ g.start ∈ g.productive ∧
      Reaches (g.knownProductions g.productive) g.start x := by
  constructor
  · intro ⟨left, right, w, hd, hv, hw⟩
    have hy := (hg.isWord_of_declares hw).yields.of_derives hv
    have hstart := hg.start_mem_productive_iff.mpr ⟨w, hd.trans hv, hw⟩
    refine ⟨hstart, reaches_of_derives (derives_knownProductions hd hy hw) x ?_⟩
    exact List.mem_append_right _ List.mem_cons_self
  · intro ⟨hstart, hx⟩
    obtain ⟨left, right, hd⟩ := derives_of_reaches
      (fun a body hb => hg.vars_nonterminal a (hg.productiveSoFar a (mem_knownProductions.mp hb).1).1)
      hx hne
    have hform : ∀ y ∈ left ++ x :: right, y ∈ g.producing g.productive :=
      fun y hy => mem_producing_of_reaches hstart (reaches_of_derives hd y hy)
    obtain ⟨w, hy, hw⟩ := hg.producing_iff_exists_yields.mp hform
    have hall := hd.mono fun a body hb => (mem_knownProductions.mp hb).2.1
    have hgenerates := (generates_iff_yields (hg.epsilon_notMem_of_start hall)).mpr hy
    exact ⟨left, right, w, hall, hgenerates.1, hw⟩

end

end Grammar

end PredictiveParsing
