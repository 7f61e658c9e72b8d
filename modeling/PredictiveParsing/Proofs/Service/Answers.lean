import PredictiveParsing.Proofs.Descent.Lookups
import PredictiveParsing.Proofs.Descent.Preorder
import PredictiveParsing.Proofs.Descent.StepLimit
import PredictiveParsing.Proofs.Lookahead.Lookups
import PredictiveParsing.Proofs.ParseTree.Typeset
import PredictiveParsing.Proofs.PascalMP
import PredictiveParsing.Proofs.Reduction.Lookups
import PredictiveParsing.Proofs.RuleText.GrammarOf
import PredictiveParsing.Proofs.RuleText.Lookups
import PredictiveParsing.Service

/-!
# The service never breaks down

A request whose data are of the kinds that the service works with is answered
with success or with a fault of the client, as soon as the parse that it asks
for ends. Reading it refuses it with a fault of the client at worst. Its grammar
is closed, so that a tree of it can be drawn, and the units of its terminals
can be collected, so that every syntax error can be reported. What the stages of
the work look up is there in each of them.
-/

namespace PredictiveParsing.Service

/-- Requests with data of the kinds that the service works with. The settings
may be anything, and so may what tokens hold beside their types. -/
structure Proper (endpoint : Endpoint) (fields : Fields) : Prop where
  /-- The grammar is a text; a request to parse can do without one. -/
  grammar : (∃ source, value fields "cfg" = .text source) ∨
    endpoint = .parseTokens ∧ value fields "cfg" = .null
  /-- The start symbol is a text if there is one. -/
  start : value fields "start_symbol" = .null ∨
    ∃ name, value fields "start_symbol" = .text name
  /-- The types of the tokens are texts. -/
  types : ∀ items, value fields "tokens" = .list items → ∀ token, .object token ∈ items →
    ∀ type, Datum.field? "type" token = some type → ∃ name, type = .text name
  /-- The units of the terminals have no parts. -/
  units : ∀ units, value fields "terminal_map" = .object units →
    ∀ unit ∈ units, unit.2.isScalar = true

/-- The parsers that a request is answered with. -/
def Employs (endpoint : Endpoint) (fields : Fields) (p : Parser) : Prop :=
  endpoint = .parseTokens ∧ ∃ job, readJob fields = .ok job ∧
    Parser.make job.settings job.grammar job.units job.tokens = .ok p

/-- The work on a request ends. An analysis always does. -/
def Halts (endpoint : Endpoint) (fields : Fields) : Prop :=
  ∀ p, Employs endpoint fields p → ∃ limit o, p.parseWithin limit = some o

/-- What is looked up in the work on a request is there. -/
structure Lookups (endpoint : Endpoint) (fields : Fields) : Prop where
  /-- Where its grammar is read. -/
  reading : ∀ source, value fields "cfg" = .text source → RuleText.ReadingLookups source
  /-- Where a grammar is reduced. -/
  reduction : ∀ g : Grammar, g.PassLookups
  /-- Where a grammar is analysed. -/
  analysis : ∀ g : Grammar, g.AnalysisLookups
  /-- Where tokens are parsed. -/
  parsing : ∀ p, Employs endpoint fields p → p.DescentLookups
  /-- Where a tree is drawn. -/
  drawing : ∀ p, Employs endpoint fields p → ∀ s, p.parse = some ⟨s, .ok ()⟩ → s.tree.Drawable

variable {endpoint : Endpoint} {fields : Fields} {job : ParseJob} {p : Parser}

/-! ### Requests are read or refused -/

/-- A result that is no interruption of the work. -/
def Uninterrupted {α : Type} (result : Except Refusal α) : Prop :=
  ∀ fault, result ≠ .error (.internal fault)

namespace Uninterrupted

variable {α β : Type}

theorem ok (a : α) : Uninterrupted (.ok a) := by
  intro fault h
  cases h

theorem client (fault : RequestFault) : Uninterrupted (.error (.client fault) : Except _ α) := by
  intro fault h
  cases h

/-- Work goes on uninterrupted. -/
theorem bind {result : Except Refusal α} {f : α → Except Refusal β} (h : Uninterrupted result)
    (hf : ∀ a, result = .ok a → Uninterrupted (f a)) : Uninterrupted (result >>= f) := by
  cases result with
  | ok a => exact hf a rfl
  | error refusal =>
    cases refusal with
    | client fault => exact client fault
    | internal fault => exact absurd rfl (h fault)

/-- Work on the members of a list one by one. -/
theorem mapM {f : α → Except Refusal β} {l : List α} (h : ∀ a ∈ l, Uninterrupted (f a)) :
    Uninterrupted (l.mapM f) := by
  induction l with
  | nil => exact ok []
  | cons a rest ih =>
    rw [List.mapM_cons]
    refine (h a List.mem_cons_self).bind fun b _ => ?_
    exact (ih fun c hc => h c (List.mem_cons_of_mem _ hc)).bind fun others _ => ok (b :: others)

/-- A fault of a grammar is the client's. -/
theorem ofGrammarFault (result : Except GrammarFault α) :
    Uninterrupted (Service.ofGrammarFault result) := by
  cases result with
  | ok a => exact ok a
  | error fault => exact client (.grammar fault)

/-- Settings are read or refused, whatever is given. -/
theorem readSettings (fields : Fields) : Uninterrupted (Service.readSettings fields) := by
  rw [Service.readSettings]
  dsimp only
  split
  · split
    · exact ok _
    · exact client _
  · split
    · split
      · exact ok _
      · exact client _
    · exact client _

/-- The units of terminals are read or refused, whatever is given. -/
theorem readUnits (given : Datum) : Uninterrupted (Service.readUnits given) := by
  rw [Service.readUnits.eq_def]
  split
  · exact ok _
  · exact ok _
  · exact client _

/-- A text is read as a grammar or refused. -/
theorem readGrammar (source : String) {start : Datum}
    (hstart : start = .null ∨ ∃ name, start = .text name) :
    Uninterrupted (Service.readGrammar (.text source) start) := by
  refine (ofGrammarFault _).bind fun productions _ => ?_
  rcases hstart with rfl | ⟨name, rfl⟩
  · exact ofGrammarFault _
  · exact ofGrammarFault _

/-- Tokens whose types are texts are read or refused, if texts are. -/
theorem readTokens {unitOf : Datum → Except Refusal LexicalUnit} {raw : Datum}
    (hunit : ∀ name, Uninterrupted (unitOf (.text name)))
    (htypes : ∀ items, raw = .list items → ∀ token, .object token ∈ items →
      ∀ type, Datum.field? "type" token = some type → ∃ name, type = .text name) :
    Uninterrupted (Service.readTokens unitOf raw) := by
  rw [Service.readTokens.eq_def]
  split
  · exact client _
  · next items _ =>
    refine mapM fun raw hraw => ?_
    rw [Service.readToken.eq_def]
    split
    · next token =>
      split
      · next type htype =>
        obtain ⟨name, rfl⟩ := htypes items rfl token hraw type htype
        exact (hunit name).bind fun unit _ => ok _
      · exact client _
    · exact client _
  · exact client _

/-- A text is a unit of PascalMP or refused. -/
theorem pascalUnit (name : String) : Uninterrupted (Service.pascalUnit (.text name)) := by
  rw [Service.pascalUnit]
  split
  · exact ok _
  · exact client _

end Uninterrupted

/-- A proper request to parse is read or refused. -/
theorem Proper.uninterrupted_readJob (h : Proper endpoint fields) :
    Uninterrupted (readJob fields) := by
  refine (Uninterrupted.readSettings fields).bind fun settings _ => ?_
  dsimp only
  split
  · exact (Uninterrupted.readTokens Uninterrupted.pascalUnit h.types).bind fun _ _ => .ok _
  · next hvacant =>
    have hgrammar : Uninterrupted
        (readGrammar (value fields "cfg") (value fields "start_symbol")) := by
      rcases h.grammar with ⟨source, hsource⟩ | ⟨-, hnull⟩
      · rw [hsource]
        exact .readGrammar source h.start
      · rw [hnull] at hvacant
        exact absurd rfl hvacant
    have htokens := @Uninterrupted.readTokens shownUnit _ (fun _ => .ok _) h.types
    exact hgrammar.bind fun _ _ => (Uninterrupted.readUnits _).bind fun _ _ =>
      htokens.bind fun _ _ => .ok _

/-- A proper request for an analysis is carried out or refused. -/
theorem Proper.uninterrupted_analyze (h : Proper .analyzeGrammar fields) :
    Uninterrupted (analyze fields) := by
  refine (Uninterrupted.readSettings fields).bind fun settings _ => ?_
  rcases h.grammar with ⟨source, hsource⟩ | ⟨hendpoint, -⟩
  · rw [hsource]
    refine (Uninterrupted.readGrammar source h.start).bind fun grammar _ => ?_
    refine (Uninterrupted.ofGrammarFault _).bind fun reduced _ => ?_
    obtain ⟨listing, hlisting⟩ := reduced.analysisLookups.listed settings.epsilonLabel
    rw [analysis, hlisting]
    exact .ok _
  · cases hendpoint

/-! ### What a parser is employed for -/

/-- The grammar and the units of a job are those of the request, or those of
PascalMP. -/
theorem of_readJob (h : readJob fields = .ok job) :
    (job.grammar = PascalMP.grammar ∧ job.units = some PascalMP.unitMap) ∨
    (readGrammar (value fields "cfg") (value fields "start_symbol") = .ok job.grammar ∧
      readUnits (value fields "terminal_map") = .ok job.units) := by
  rw [readJob] at h
  obtain ⟨settings, -, hjob⟩ := exists_ok_of_bind h
  dsimp only at hjob
  split at hjob
  · obtain ⟨tokens, -, hgiven⟩ := exists_ok_of_bind hjob
    cases hgiven
    exact .inl ⟨rfl, rfl⟩
  · obtain ⟨g, hg, hrest⟩ := exists_ok_of_bind hjob
    obtain ⟨units, hunits, hlast⟩ := exists_ok_of_bind hrest
    obtain ⟨tokens, -, hgiven⟩ := exists_ok_of_bind hlast
    cases hgiven
    exact .inr ⟨hg, hunits⟩

/-- What is not refused for a fault of a grammar is obtained from it. -/
theorem ofGrammarFault_eq_ok {α : Type} {result : Except GrammarFault α} {a : α}
    (h : ofGrammarFault result = .ok a) : result = .ok a := by
  cases result with
  | ok b => rw [Except.ok.inj h]
  | error fault => cases h

/-- A grammar that is read is closed. -/
theorem closed_of_readGrammar {text start : Datum} {g : Grammar}
    (h : readGrammar text start = .ok g) : g.Closed := by
  rw [readGrammar.eq_def] at h
  split at h
  · obtain ⟨productions, -, hgrammar⟩ := exists_ok_of_bind h
    split at hgrammar
    · exact RuleText.closed_of_grammarOf (ofGrammarFault_eq_ok hgrammar)
    · exact RuleText.closed_of_grammarOf (ofGrammarFault_eq_ok hgrammar)
    · split at hgrammar <;> cases hgrammar
  · cases h

/-- Units that are read for terminals come from the fields that are given. -/
theorem exists_of_readUnits {given : Datum} {units : UnitMap}
    (h : readUnits given = .ok (some units)) :
    ∃ fields, given = .object fields ∧
      units = fields.map fun field => (field.1, LexicalUnit.plain field.2) := by
  rw [readUnits.eq_def] at h
  split at h
  · cases h
  · next fields =>
    exact ⟨fields, rfl, (Option.some.inj (Except.ok.inj h)).symm⟩
  · cases h

namespace Employs

/-- The grammar of the parser is closed. -/
theorem closed (h : Employs endpoint fields p) : p.grammar.Closed := by
  obtain ⟨-, job, hjob, hmake⟩ := h
  have hgiven : job.grammar.Closed := by
    rcases of_readJob hjob with ⟨hg, -⟩ | ⟨hg, -⟩
    · rw [hg]
      exact PascalMP.grammar_closed
    · exact closed_of_readGrammar hg
  exact (hgiven.reduce (Parser.made_of_make hmake).reduced).1

/-- The units of the terminals can be collected. -/
theorem isScalar (h : Employs endpoint fields p) (hproper : Proper endpoint fields) :
    ∀ units ∈ p.units, ∀ entry ∈ units, entry.2.isScalar = true := by
  obtain ⟨-, job, hjob, hmake⟩ := h
  rw [(Parser.made_of_make hmake).units_eq]
  rcases of_readJob hjob with ⟨-, hpascal⟩ | ⟨-, hread⟩
  · rw [hpascal]
    intro units hunits entry hentry
    rw [← Option.mem_some.mp hunits] at hentry
    obtain ⟨u, -, rfl⟩ := List.mem_map.mp hentry
    rfl
  · intro units hunits entry hentry
    rw [Option.mem_def.mp hunits] at hread
    obtain ⟨given, hgiven, rfl⟩ := exists_of_readUnits hread
    obtain ⟨unit, hunit, rfl⟩ := List.mem_map.mp hentry
    exact hproper.units given hgiven unit hunit

/-- The tree of a successful parse can be drawn. -/
theorem drawable (h : Employs endpoint fields p) {s : ParseState}
    (hs : p.parse = some ⟨s, .ok ()⟩) : s.tree.Drawable := by
  obtain ⟨last, result, hends, ho⟩ := Parser.ends_of_parseWithin hs
  have hok : (p.conclude ⟨last, result⟩).result = .ok () := (congrArg Outcome.result ho).symm
  obtain ⟨root, rfl, hstate⟩ := Parser.conclude_eq_ok hok
  have hlast : s = { last with tree := last.tree.setRoot root } :=
    (congrArg Outcome.state ho).trans hstate
  rw [hlast]
  exact (hends.fillsArena h.closed).forest.drawable

end Employs

/-! ### Answers -/

/-- Units that can be accepted are units of symbols. -/
theorem exists_of_mem_acceptable {a : Symbol} {unit : LexicalUnit} (h : unit ∈ p.acceptable a) :
    ∃ b, p.unitOf b = unit := by
  have hfirst := (List.mem_filter.mp (List.mem_eraseDups.mp (Text.mem_sortBy.mp h))).1
  obtain ⟨b, -, hb⟩ := List.mem_map.mp hfirst
  exact ⟨b, hb⟩

/-- What a symbol is rejected for can be collected. -/
theorem uncollectable?_of_rejects (h : p.DescentLookups) {s : ParseState} {x : Symbol}
    {e : SyntaxError} (hr : p.Rejects s x e) : uncollectable? e = none := by
  cases hr with
  | unit => rfl
  | head =>
    refine List.findSome?_eq_none_iff.mpr fun unit hunit => ?_
    obtain ⟨b, rfl⟩ := exists_of_mem_acceptable hunit
    have hscalar := h.collected b
    split
    · next d hd =>
      rw [hd] at hscalar
      exact if_pos hscalar
    · rfl

/-- What a parse fails for can be collected. -/
theorem uncollectable?_of_parse (h : p.DescentLookups) {s : ParseState} {e : SyntaxError}
    (hs : p.parse = some ⟨s, .error e⟩) : uncollectable? e = none := by
  obtain ⟨last, result, hends, ho⟩ := Parser.ends_of_parseWithin hs
  rw [Parser.conclude] at ho
  cases result with
  | error cause =>
    cases (Outcome.mk.inj ho).2
    cases hends with
    | refused rejects => exact uncollectable?_of_rejects h rejects
    | stuck _ rejects => exact uncollectable?_of_rejects h rejects
  | ok root =>
    dsimp only at ho
    split at ho
    · cases (Outcome.mk.inj ho).2
      rfl
    · cases (Outcome.mk.inj ho).2

/-- A parse is reported if its tree can be drawn. -/
theorem exists_parseReport {t : ParseTree} (h : t.Drawable) (style : Style) (g : Grammar)
    (trace : List Int) : ∃ report, Report.parseReport style g t trace = .ok report := by
  obtain ⟨graph, hgraph⟩ := h.graph style.showValues "Parse Tree"
  obtain ⟨text, htext⟩ := h.text style.showValues
  obtain ⟨typeset, htypeset⟩ := h.typeset style.showValues
  rw [Report.parseReport, hgraph, htext, htypeset]
  exact ⟨_, rfl⟩

/-- The answer to a parse that ends is a success or a fault of the client. -/
theorem status_jobResponse {o : Outcome Unit} (hproper : Proper endpoint fields)
    (h : Employs endpoint fields p) (ho : p.parse = some o)
    (hmake : Parser.make job.settings job.grammar job.units job.tokens = .ok p) :
    (jobResponse job).status = 200 ∨ (jobResponse job).status = 400 := by
  obtain ⟨s, result⟩ := o
  rw [jobResponse, hmake]
  dsimp only
  rw [ho]
  cases result with
  | error e =>
    have hcollected :=
      uncollectable?_of_parse (Parser.descentLookups (h.isScalar hproper)) ho
    dsimp only
    rw [syntaxErrorResponse, hcollected]
    exact .inr rfl
  | ok u =>
    obtain ⟨report, hreport⟩ :=
      exists_parseReport (h.drawable ho) {} p.grammar (s.trace.map Int.ofNat)
    dsimp only
    rw [successResponse, hreport]
    exact .inl rfl

/-- A proper request to parse is answered with success or a fault of the
client once the parse ends. -/
theorem Proper.status_parseResponse (h : Proper .parseTokens fields)
    (hhalts : Halts .parseTokens fields) :
    (parseResponse fields).status = 200 ∨ (parseResponse fields).status = 400 := by
  rw [parseResponse]
  cases hjob : readJob fields with
  | error refusal =>
    cases refusal with
    | client fault => exact .inr rfl
    | internal fault => exact absurd hjob (h.uninterrupted_readJob fault)
  | ok job =>
    dsimp only
    cases hmake : Parser.make job.settings job.grammar job.units job.tokens with
    | error fault =>
      rw [jobResponse, hmake]
      exact .inr rfl
    | ok p =>
      have hp : Employs .parseTokens fields p := ⟨rfl, job, hjob, hmake⟩
      obtain ⟨limit, o, ho⟩ := hhalts p hp
      exact status_jobResponse h hp (Parser.parse_eq_of_parseWithin ho) hmake

/-- A proper request for an analysis is answered with success or a fault of
the client. -/
theorem Proper.status_analyzeResponse (h : Proper .analyzeGrammar fields) :
    (analyzeResponse fields).status = 200 ∨ (analyzeResponse fields).status = 400 := by
  rw [analyzeResponse]
  split
  · exact .inr rfl
  · cases hdata : analyze fields with
    | ok data => exact .inl rfl
    | error refusal =>
      cases refusal with
      | client fault => exact .inr rfl
      | internal fault => exact absurd hdata (h.uninterrupted_analyze fault)

/-- Every proper request on which the work ends is answered with success or a
fault of the client, and no lookup fails in the work. -/
theorem respond_regular (h : Proper endpoint fields) (hhalts : Halts endpoint fields) :
    ((respond endpoint (.object fields)).status = 200 ∨
      (respond endpoint (.object fields)).status = 400) ∧ Lookups endpoint fields := by
  refine ⟨?_, ?_⟩
  · cases endpoint with
    | analyzeGrammar => exact h.status_analyzeResponse
    | parseTokens => exact h.status_parseResponse hhalts
  · exact {
      reading := fun source _ => RuleText.readingLookups source
      reduction := Grammar.passLookups
      analysis := Grammar.analysisLookups
      parsing := fun p hp => Parser.descentLookups (hp.isScalar h)
      drawing := fun p hp s hs => hp.drawable hs }

/-- A request to parse a sum. -/
def sumRequest : Fields := [
  ("cfg", .text "E -> E + x | x"),
  ("tokens", .list (["x", "+", "x", "$"].map fun name => .object [("type", .text name)]))]

/-- The parse of the sum ends, and its request is answered as it should be. -/
theorem respond_regular_sumRequest :
    Proper .parseTokens sumRequest ∧ Halts .parseTokens sumRequest ∧
    ((respond .parseTokens (.object sumRequest)).status = 200 ∨
      (respond .parseTokens (.object sumRequest)).status = 400) ∧
    Lookups .parseTokens sumRequest := by
  have hproper : Proper .parseTokens sumRequest := by
    refine ⟨.inl ⟨_, rfl⟩, .inl rfl, ?_, fun units hunits => by cases hunits⟩
    intro items hitems token htoken type htype
    cases hitems
    obtain ⟨name, -, htoken⟩ := List.mem_map.mp htoken
    cases htoken
    exact ⟨name, (Option.some.inj htype).symm⟩
  have hrun : ((readJob sumRequest).toOption.bind fun job =>
      (Parser.make job.settings job.grammar job.units job.tokens).toOption.bind fun p =>
        (p.parseWithin 40).map fun o => o.result.isOk) = some true := by
    decide +kernel
  have hhalts : Halts .parseTokens sumRequest := by
    rintro p ⟨-, job, hjob, hmake⟩
    rw [hjob, Except.toOption, Option.bind_some, hmake] at hrun
    obtain ⟨o, ho, -⟩ := Option.map_eq_some_iff.mp hrun
    exact ⟨40, o, ho⟩
  exact ⟨hproper, hhalts, respond_regular hproper hhalts⟩

end PredictiveParsing.Service
