import PredictiveParsing.Proofs.Grammar.Names
import PredictiveParsing.Proofs.RuleText.Productions

/-!
# Reading a text finds what it looks up

The text of a production is a line that starts with a head and an arrow,
followed by the lines that continue it, each behind a space. A space ends
every name and is no part of an arrow, so that the longer text still starts
with a head and an arrow, and a production is read from it. Where productions
are read there is a first head, which is the start symbol unless another one
is asked for.
-/

namespace PredictiveParsing.RuleText

open Text

/-- What is looked up when a text is read is there. -/
structure ReadingLookups (source : String) : Prop where
  /-- Every text of a production has a head and an arrow. -/
  headed : ∀ texts,
    allProductions (pieces ';' (joinWith ['\n'] (contentLines source.toList))) = .ok texts →
      ∀ text ∈ texts, (production? text).isSome = true
  /-- There is a first head. -/
  first : ∀ productions, readProductions source = .ok productions →
    ∃ head, (heads productions).head? = some head

variable {s more name after : List Char}

/-! ### A head is found in a longer text -/

/-- A space that is not in a class ends a run of the class. -/
theorem takeWhile_append_space {class? : Char → Bool} (h : class? ' ' = false) (s : List Char)
    (more : List Char) : (s ++ ' ' :: more).takeWhile class? = s.takeWhile class? := by
  induction s with
  | nil => exact List.takeWhile_cons_of_neg (by rw [h]; exact Bool.false_ne_true)
  | cons c rest ih =>
    rw [List.cons_append, List.takeWhile_cons, List.takeWhile_cons, ih]

theorem dropWhile_append_space {class? : Char → Bool} (h : class? ' ' = false) (s : List Char)
    (more : List Char) :
    (s ++ ' ' :: more).dropWhile class? = s.dropWhile class? ++ ' ' :: more := by
  induction s with
  | nil => exact List.dropWhile_cons_of_neg (by rw [h]; exact Bool.false_ne_true)
  | cons c rest ih =>
    rw [List.cons_append, List.dropWhile_cons, List.dropWhile_cons, ih]
    split <;> rfl

/-- Apostrophes end before a space. -/
theorem primes_append_space (s more : List Char) :
    primes (s ++ ' ' :: more) = ((primes s).1, (primes s).2 ++ ' ' :: more) := by
  rw [primes, takeWhile_append_space rfl, dropWhile_append_space rfl, primes]

/-- A word that is found ends before a space. -/
theorem wordName?_append_space (h : wordName? s = some (name, after)) (more : List Char) :
    wordName? (s ++ ' ' :: more) = some (name, after ++ ' ' :: more) := by
  cases s with
  | nil => cases h
  | cons c rest =>
    rw [wordName?] at h
    rw [List.cons_append, wordName?]
    split at h
    · next hc =>
      obtain ⟨hname, hafter⟩ := Prod.mk.inj (Option.some.inj h)
      rw [if_pos hc, takeWhile_append_space rfl, dropWhile_append_space rfl]
      dsimp only
      rw [primes_append_space, hname, hafter]
    · cases h

/-- A name in angle brackets that is found ends before a space. -/
theorem tagName?_append_space (h : tagName? s = some (name, after)) (more : List Char) :
    tagName? (s ++ ' ' :: more) = some (name, after ++ ' ' :: more) := by
  rw [tagName?.eq_def] at h
  split at h
  · next rest =>
    rw [List.cons_append, tagName?, takeWhile_append_space rfl, dropWhile_append_space rfl]
    split at h
    · next c inner t hinner ht =>
      obtain ⟨hname, hafter⟩ := Prod.mk.inj (Option.some.inj h)
      rw [hinner, ht, List.cons_append, ← hname, ← hafter]
      show some ('<' :: c :: inner ++ '>' :: (primes (t ++ ' ' :: more)).1,
        (primes (t ++ ' ' :: more)).2) = _
      rw [primes_append_space]
    · cases h
  · cases h

/-- A head that is found ends before a space. -/
theorem headName?_append_space (h : headName? s = some (name, after)) (more : List Char) :
    headName? (s ++ ' ' :: more) = some (name, after ++ ' ' :: more) := by
  rw [headName?, Option.orElse_eq_orElse, Option.orElse_eq_or, Option.or_eq_some_iff] at h
  rcases h with htag | ⟨-, hword⟩
  · rw [headName?, tagName?_append_space htag]
    rfl
  · have hnext := wordName?_append_space hword more
    cases s with
    | nil => cases hword
    | cons c rest =>
      have hstart : isNameStart c = true := by
        rw [wordName?] at hword
        split at hword
        · next hc => exact hc
        · cases hword
      rw [List.cons_append] at hnext ⊢
      rw [headName?, tagName?_of_isNameStart hstart, hnext]
      rfl

/-- An arrow is still one before a space. -/
theorem isSome_afterArrow?_append_space (h : (afterArrow? s).isSome = true) (more : List Char) :
    (afterArrow? (s ++ ' ' :: more)).isSome = true := by
  rw [afterArrow?.eq_def] at h
  split at h
  · rfl
  · rfl
  · cases h
  · next rest hdouble hequals =>
    have hnodouble : ∀ tail, rest ++ ' ' :: more = ':' :: '=' :: tail → False := by
      intro tail he
      match rest with
      | [] => cases he
      | [_] => cases he
      | _ :: _ :: others =>
        cases he
        exact hdouble others rfl
    have hnoequals : ∀ tail, rest ++ ' ' :: more = '=' :: tail → False := by
      intro tail he
      cases rest with
      | nil => cases he
      | cons d others =>
        cases he
        exact hequals others rfl
    rw [List.cons_append, afterArrow?.eq_4 _ hnodouble hnoequals]
    rfl
  · rfl
  · cases h

/-- Leading blanks of a text that is not blank are those of a longer one. -/
theorem trimStart_append_of_ne_nil (h : trimStart s ≠ []) (more : List Char) :
    trimStart (s ++ more) = trimStart s ++ more := by
  have hempty : ¬(s.dropWhile isBlank).isEmpty = true := fun he => h (List.isEmpty_iff.mp he)
  rw [trimStart, List.dropWhile_append, if_neg hempty]
  rfl

/-- The head of a line that starts a production. -/
def lineHead? (s : List Char) : Option (List Char) := (splitHead? s).map Prod.fst

/-- A line that starts a production has the same head when lines continue it. -/
theorem lineHead?_append_space (h : lineHead? s = some name) (more : List Char) :
    lineHead? (s ++ ' ' :: more) = some name := by
  rw [lineHead?, splitHead?] at h
  cases hhead : headName? (trimStart s) with
  | none => rw [hhead] at h; cases h
  | some found =>
    obtain ⟨first, after⟩ := found
    rw [hhead] at h
    dsimp only at h
    cases harrow : afterArrow? (trimStart after) with
    | none => rw [harrow] at h; cases h
    | some body =>
      rw [harrow] at h
      have hs : trimStart s ≠ [] := by
        intro he
        rw [he] at hhead
        cases hhead
      have hafter : trimStart after ≠ [] := by
        intro he
        rw [he] at harrow
        cases harrow
      have hlong := isSome_afterArrow?_append_space (Option.isSome_of_eq_some harrow) more
      rw [lineHead?, splitHead?, trimStart_append_of_ne_nil hs, headName?_append_space hhead]
      dsimp only
      rw [trimStart_append_of_ne_nil hafter]
      cases hbody : afterArrow? (trimStart after ++ ' ' :: more) with
      | none => rw [hbody] at hlong; cases hlong
      | some longer => exact h

/-! ### Every text of a production has a head -/

/-- Lines put together have the heads of the lines that start productions. -/
theorem map_lineHead?_of_groupLines {current : Option (List Char)} {lines texts : List (List Char)}
    (hc : ∀ text ∈ current, (lineHead? text).isSome = true)
    (h : groupLines current lines = .ok texts) :
    texts.map lineHead? = ((current.toList ++ lines).map lineHead?).filter Option.isSome := by
  have kept : ∀ {current : Option (List Char)}, (∀ text ∈ current, (lineHead? text).isSome = true) →
      (current.toList.map lineHead?).filter Option.isSome = current.toList.map lineHead? := by
    intro current hc
    refine List.filter_eq_self.mpr fun head hhead => ?_
    obtain ⟨text, ht, rfl⟩ := List.mem_map.mp hhead
    exact hc text (Option.mem_toList.mp ht)
  induction lines generalizing current texts with
  | nil => rw [← Except.ok.inj h, List.append_nil, kept hc]
  | cons line rest ih =>
    rw [groupLines.eq_def] at h
    dsimp only at h
    split at h
    · next hline =>
      cases hrest : groupLines (some line) rest with
      | error fault => rw [hrest] at h; cases h
      | ok others =>
        rw [hrest] at h
        have hhead : ∀ text ∈ some line, (lineHead? text).isSome = true := by
          rintro _ ⟨⟩
          rwa [lineHead?, Option.isSome_map]
        rw [← Except.ok.inj h, List.map_append, List.map_append, List.filter_append, kept hc,
          ih hhead hrest]
        rfl
    · next hline =>
      cases current with
      | none => cases h
      | some text =>
        obtain ⟨name, hname⟩ := Option.isSome_iff_exists.mp (hc text rfl)
        have hlong := lineHead?_append_space hname line
        have hstray : lineHead? line = none := by
          rw [lineHead?, Option.map_eq_none_iff]
          exact Option.not_isSome_iff_eq_none.mp hline
        have hnext := ih (fun other ho => Option.mem_some_iff.mp ho ▸ hlong ▸ rfl) h
        rw [hnext]
        simp only [Option.toList_some, List.singleton_append, List.map_cons, hlong, hname, hstray]
        rfl

/-- The texts of all blocks have the heads of the lines that start productions. -/
theorem map_lineHead?_of_allProductions {blocks texts : List (List Char)}
    (h : allProductions blocks = .ok texts) :
    texts.map lineHead? =
      ((blocks.map lineTexts).flatten.map lineHead?).filter Option.isSome := by
  induction blocks generalizing texts with
  | nil =>
    rw [← Except.ok.inj h]
    rfl
  | cons block rest ih =>
    rw [allProductions, blockProductions_eq] at h
    obtain ⟨first, hblock, hothers⟩ := exists_ok_of_bind h
    obtain ⟨others, hrest, htexts⟩ := exists_ok_of_bind hothers
    rw [← Except.ok.inj htexts, List.map_append, ih hrest,
      map_lineHead?_of_groupLines (fun _ hn => by cases hn) hblock, Option.toList_none,
      List.nil_append, List.map_cons, List.flatten_cons, List.map_append, List.filter_append]

/-- Every text of a production has a head. -/
theorem isSome_lineHead?_of_allProductions {blocks texts : List (List Char)}
    (h : allProductions blocks = .ok texts) : ∀ text ∈ texts, (lineHead? text).isSome = true := by
  intro text ht
  have hmem := List.mem_map_of_mem (f := lineHead?) ht
  rw [map_lineHead?_of_allProductions h] at hmem
  exact (List.mem_filter.mp hmem).2

/-- The productions of a text are those of its texts, and there are some. -/
theorem readProductions_eq_ok {source : String} {productions : List Production}
    (h : readProductions source = .ok productions) :
    ∃ texts,
      allProductions (pieces ';' (joinWith ['\n'] (contentLines source.toList))) = .ok texts ∧
      texts.filterMap production? = productions ∧ productions ≠ [] := by
  rw [readProductions] at h
  obtain ⟨texts, htexts, hfound⟩ := exists_ok_of_bind h
  split at hfound
  · cases hfound
  · next hne =>
    rw [← Except.ok.inj hfound]
    exact ⟨texts, htexts, rfl, hne⟩

/-- No lookup of the reading of a text fails. -/
theorem readingLookups (source : String) : ReadingLookups source where
  headed := by
    intro texts htexts text htext
    rw [production?, Option.isSome_map, ← Option.isSome_map]
    exact isSome_lineHead?_of_allProductions htexts text htext
  first := by
    intro productions hread
    obtain ⟨texts, -, rfl, hne⟩ := readProductions_eq_ok hread
    obtain ⟨first, rest, hfound⟩ := List.exists_cons_of_ne_nil hne
    rw [hfound, heads, List.map_cons, List.eraseDups_cons]
    exact ⟨_, rfl⟩

end PredictiveParsing.RuleText
