import Mathlib.Data.List.TakeWhile
import PredictiveParsing.Text.Blank

/-!
# Pieces and lines of texts put together

Cutting a text that is put together from two gives the pieces of both, the
last of the first grown together with the first of the second. Functions
that do not see blanks at the ends of a text are singled out, since trimming
changes nothing for them: the content lines of a text are such a function,
and so are its sections, the content lines between separators. A text that
is replaced by its content lines keeps its sections.
-/

namespace PredictiveParsing.Text

/-- A run of blanks, line ends included. -/
def IsBlanks (s : List Char) : Prop := ∀ c ∈ s, isBlank c = true

/-- What a function makes of a text does not depend on blanks at its ends. -/
structure IgnoresBlanks {β : Type} (f : List Char → β) : Prop where
  /-- A blank at the start does not count. -/
  cons : ∀ {c : Char} (s : List Char), isBlank c = true → f (c :: s) = f s
  /-- A blank at the end does not count. -/
  concat : ∀ {c : Char} (s : List Char), isBlank c = true → f (s ++ [c]) = f s

namespace IgnoresBlanks

variable {β : Type} {f : List Char → β}

theorem trimStart (hf : IgnoresBlanks f) (s : List Char) : f (Text.trimStart s) = f s := by
  induction s with
  | nil => rfl
  | cons c rest ih =>
    by_cases hc : isBlank c = true
    · rw [Text.trimStart, List.dropWhile_cons_of_pos hc, hf.cons rest hc]
      exact ih
    · rw [Text.trimStart, List.dropWhile_cons_of_neg hc]

theorem trimEnd (hf : IgnoresBlanks f) (s : List Char) : f (Text.trimEnd s) = f s := by
  have drop : ∀ l : List Char, f (l.dropWhile isBlank).reverse = f l.reverse := by
    intro l
    induction l with
    | nil => rfl
    | cons c rest ih =>
      by_cases hc : isBlank c = true
      · rw [List.dropWhile_cons_of_pos hc, ih, List.reverse_cons, hf.concat _ hc]
      · rw [List.dropWhile_cons_of_neg hc]
  rw [Text.trimEnd, drop, List.reverse_reverse]

theorem trim (hf : IgnoresBlanks f) (s : List Char) : f (Text.trim s) = f s := by
  rw [Text.trim, hf.trimEnd, hf.trimStart]

theorem append_left (hf : IgnoresBlanks f) {lead : List Char} (h : IsBlanks lead)
    (s : List Char) : f (lead ++ s) = f s := by
  induction lead with
  | nil => rfl
  | cons c rest ih =>
    obtain ⟨hc, hrest⟩ := List.forall_mem_cons.mp h
    rw [List.cons_append, hf.cons _ hc, ih hrest]

theorem append_right (hf : IgnoresBlanks f) {tail : List Char} (h : IsBlanks tail)
    (s : List Char) : f (s ++ tail) = f s := by
  induction tail generalizing s with
  | nil => rw [List.append_nil]
  | cons c rest ih =>
    obtain ⟨hc, hrest⟩ := List.forall_mem_cons.mp h
    rw [List.append_cons, ih hrest, hf.concat s hc]

/-- What is made of the outcome does not depend on the blanks either. -/
theorem comp {γ : Type} (hf : IgnoresBlanks f) (g : β → γ) : IgnoresBlanks fun s => g (f s) :=
  ⟨fun s hc => congrArg g (hf.cons s hc), fun s hc => congrArg g (hf.concat s hc)⟩

end IgnoresBlanks

/-- A text with something else than blanks keeps what follows it. -/
theorem trimStart_append {s : List Char} {c : Char} (hc : c ∈ s) (hb : isBlank c = false)
    (t : List Char) : trimStart (s ++ t) = trimStart s ++ t := by
  have hne : s.dropWhile isBlank ≠ [] := by
    intro h
    have := List.dropWhile_eq_nil_iff.mp h c hc
    rw [hb] at this
    cases this
  rw [trimStart, trimStart, List.dropWhile_append, if_neg]
  rwa [List.isEmpty_iff]

/-- Blanks at the start are all left out. -/
theorem trimStart_append_left {lead : List Char} (h : IsBlanks lead) (s : List Char) :
    trimStart (lead ++ s) = trimStart s :=
  List.dropWhile_append_of_pos h

/-- A text that starts with a character other than a blank has none to lose
there. -/
theorem trimStart_cons {c : Char} (hb : isBlank c = false) (s : List Char) :
    trimStart (c :: s) = c :: s := by
  rw [trimStart, List.dropWhile_cons_of_neg (by rw [hb]; exact Bool.false_ne_true)]

/-- Only what follows the last character other than a blank can be lost at
the end. -/
theorem trimEnd_append_cons {c : Char} (hb : isBlank c = false) (s t : List Char) :
    trimEnd (s ++ c :: t) = s ++ c :: trimEnd t := by
  have hkeep : (c :: s.reverse).dropWhile isBlank = c :: s.reverse := trimStart_cons hb s.reverse
  have hreverse : (s ++ c :: t).reverse = t.reverse ++ c :: s.reverse := by simp
  rw [trimEnd, trimEnd, hreverse, List.dropWhile_append]
  split
  · next h =>
    rw [List.isEmpty_iff] at h
    rw [hkeep, h]
    simp
  · simp

/-- No character is new in a text without its trailing blanks. -/
theorem mem_of_mem_trimEnd {s : List Char} {c : Char} (h : c ∈ trimEnd s) : c ∈ s := by
  rw [trimEnd, List.mem_reverse] at h
  exact List.mem_reverse.mp ((List.dropWhile_sublist isBlank).mem h)

/-- Trimming a text does not depend on the blanks at its ends. -/
theorem ignoresBlanks_trim : IgnoresBlanks trim := by
  constructor
  · intro c s hc
    rw [trim, trimStart, List.dropWhile_cons_of_pos hc]
    rfl
  · intro c s hc
    have hend : ∀ t : List Char, trimEnd (t ++ [c]) = trimEnd t := by
      intro t
      rw [trimEnd, List.reverse_append, List.reverse_singleton, List.singleton_append,
        List.dropWhile_cons_of_pos hc]
      rfl
    by_cases hs : IsBlanks s
    · have hboth : IsBlanks (s ++ [c]) := by
        intro d hd
        rcases List.mem_append.mp hd with hd | hd
        · exact hs d hd
        · rwa [List.mem_singleton.mp hd]
      rw [trim, trim, trimStart, trimStart, List.dropWhile_eq_nil_iff.mpr hboth,
        List.dropWhile_eq_nil_iff.mpr hs]
    · obtain ⟨d, hd, hb⟩ : ∃ d ∈ s, isBlank d = false := by
        simpa [IsBlanks] using hs
      rw [trim, trimStart_append hd hb, hend]
      rfl

/-- Whether there is something else than blanks does not depend on the blanks
at the ends. -/
theorem ignoresBlanks_content : IgnoresBlanks fun s => ∃ c ∈ s, isBlank c = false := by
  constructor
  · intro c s hc
    simp [hc]
  · intro c s hc
    simp [hc]

/-- A text with something else than blanks is not trimmed away. -/
theorem trim_ne_nil {s : List Char} {c : Char} (hc : c ∈ s) (hb : isBlank c = false) :
    trim s ≠ [] := by
  obtain ⟨d, hd, -⟩ := (ignoresBlanks_content.trim s).symm.mp ⟨c, hc, hb⟩
  exact List.ne_nil_of_mem hd

/-- Two lists of pieces put together, so that the last piece of the one and
the first piece of the other become one piece. -/
def glue {α : Type} : List (List α) → List (List α) → List (List α)
  | [], ys => ys
  | [x], [] => [x]
  | [x], y :: ys => (x ++ y) :: ys
  | x :: next :: xs, ys => x :: glue (next :: xs) ys

theorem nil_glue {α : Type} {ys : List (List α)} (h : ys ≠ []) : glue [[]] ys = ys := by
  cases ys with
  | nil => exact absurd rfl h
  | cons y ys => rfl

theorem glue_nil {α : Type} {xs : List (List α)} (h : xs ≠ []) : glue xs [[]] = xs := by
  induction xs with
  | nil => exact absurd rfl h
  | cons x xs ih =>
    cases xs with
    | nil => rw [glue, List.append_nil]
    | cons next xs => rw [glue, ih (List.cons_ne_nil _ _)]

/-- What is put before the first piece stays before it. -/
theorem cons_glue {α : Type} (c : α) (x : List α) (xs ys : List (List α)) :
    glue ((c :: x) :: xs) ys = match glue (x :: xs) ys with
      | [] => []
      | first :: others => (c :: first) :: others := by
  cases xs with
  | nil => cases ys <;> rfl
  | cons next xs => rfl

/-- The pieces of a text that starts with another character than the
separator. -/
theorem pieces_cons {separator c : Char} (hc : c ≠ separator) {s first : List Char}
    {others : List (List Char)} (h : pieces separator s = first :: others) :
    pieces separator (c :: s) = (c :: first) :: others := by
  rw [pieces, if_neg hc, h]

theorem exists_pieces (separator : Char) (s : List Char) :
    ∃ first others, pieces separator s = first :: others :=
  List.exists_cons_of_ne_nil (pieces_ne_nil separator s)

/-- A text without the separator is its only piece. -/
theorem pieces_of_notMem {separator : Char} {s : List Char} (h : separator ∉ s) :
    pieces separator s = [s] := by
  induction s with
  | nil => rfl
  | cons c rest ih =>
    rw [List.mem_cons, not_or] at h
    exact pieces_cons (Ne.symm h.1) (ih h.2)

/-- The characters of texts put together. -/
theorem mem_joinWith {between : List Char} {c : Char} {texts : List (List Char)}
    (h : c ∈ joinWith between texts) : c ∈ between ∨ ∃ text ∈ texts, c ∈ text := by
  induction texts with
  | nil => cases h
  | cons text rest ih =>
    cases rest with
    | nil => exact .inr ⟨text, List.mem_cons_self, h⟩
    | cons next more =>
      rw [joinWith, List.mem_append, List.mem_append] at h
      · rcases h with (h | h) | h
        · exact .inr ⟨text, List.mem_cons_self, h⟩
        · exact .inl h
        · rcases ih h with h | ⟨other, hother, h⟩
          · exact .inl h
          · exact .inr ⟨other, List.mem_cons_of_mem _ hother, h⟩
      · exact fun e => List.cons_ne_nil _ _ e

/-- The pieces of two texts one after the other. -/
theorem pieces_append (separator : Char) (s t : List Char) :
    pieces separator (s ++ t) = glue (pieces separator s) (pieces separator t) := by
  induction s with
  | nil => exact (nil_glue (pieces_ne_nil separator t)).symm
  | cons c rest ih =>
    obtain ⟨first, others, hp⟩ := exists_pieces separator rest
    by_cases hc : c = separator
    · rw [List.cons_append, pieces, if_pos hc, pieces, if_pos hc, ih, hp, glue]
    · obtain ⟨first', others', hp'⟩ := exists_pieces separator (rest ++ t)
      rw [List.cons_append, pieces_cons hc hp', pieces_cons hc hp, cons_glue, ← hp, ← ih, hp']

/-- The pieces of two texts with the separator between them. -/
theorem pieces_append_cons (separator : Char) (s t : List Char) :
    pieces separator (s ++ separator :: t) = pieces separator s ++ pieces separator t := by
  induction s with
  | nil => exact if_pos rfl
  | cons c rest ih =>
    by_cases hc : c = separator
    · rw [List.cons_append, pieces, if_pos hc, pieces, if_pos hc, ih]
      rfl
    · obtain ⟨first, others, hp⟩ := exists_pieces separator rest
      rw [hp] at ih
      rw [List.cons_append, pieces_cons hc ih, pieces_cons hc hp]
      rfl

/-- What is made of glued pieces, if the piece in the middle is seen as two. -/
theorem map_glue {α β : Type} {f : List α → List β} {y : List α} {image : List β}
    (h : ∀ x, f (x ++ y) = f x ++ image) {xs : List (List α)} (hxs : xs ≠ [])
    (ys : List (List α)) : (glue xs (y :: ys)).map f = glue (xs.map f) (image :: ys.map f) := by
  induction xs with
  | nil => exact absurd rfl hxs
  | cons x xs ih =>
    cases xs with
    | nil => rw [glue, List.map_cons, h]; rfl
    | cons next xs => rw [glue, List.map_cons, ih (List.cons_ne_nil _ _)]; rfl

/-- A blank at the end of the last piece does not count. -/
theorem IgnoresBlanks.map_glue {β : Type} {f : List Char → β} (hf : IgnoresBlanks f) {c : Char}
    (hc : isBlank c = true) {xs : List (List Char)} (hxs : xs ≠ []) :
    (glue xs [[c]]).map f = xs.map f := by
  induction xs with
  | nil => exact absurd rfl hxs
  | cons x xs ih =>
    cases xs with
    | nil => rw [glue, List.map_cons, hf.concat x hc]; rfl
    | cons next xs => rw [glue, List.map_cons, ih (List.cons_ne_nil _ _)]; rfl

/-- What is made of the pieces of a text, if it ignores blanks and the
separator is none. -/
theorem IgnoresBlanks.pieces {β : Type} {f : List Char → β} (hf : IgnoresBlanks f)
    {separator : Char} (hs : isBlank separator = false) :
    IgnoresBlanks fun s => (Text.pieces separator s).map f := by
  have other : ∀ {c : Char}, isBlank c = true → c ≠ separator := by
    rintro c hc rfl
    rw [hs] at hc
    cases hc
  constructor
  · intro c s hc
    obtain ⟨first, others, hp⟩ := exists_pieces separator s
    rw [pieces_cons (other hc) hp, hp, List.map_cons, hf.cons first hc, List.map_cons]
  · intro c s hc
    have hpiece : separator ∉ [c] := fun h => other hc (List.mem_singleton.mp h).symm
    rw [pieces_append, pieces_of_notMem hpiece, hf.map_glue hc (pieces_ne_nil separator s)]

/-- The lines of a text, trimmed, without those that are blank. -/
def lineTexts (s : List Char) : List (List Char) :=
  ((pieces '\n' s).map trim).filter fun line => !line.isEmpty

theorem lineTexts_append (s t : List Char) :
    lineTexts (s ++ '\n' :: t) = lineTexts s ++ lineTexts t := by
  rw [lineTexts, pieces_append_cons, List.map_append, List.filter_append]
  rfl

/-- A text that is not blank and has no line end is its only line. -/
theorem lineTexts_of_notMem {s : List Char} (h : '\n' ∉ s) (hne : trim s ≠ []) :
    lineTexts s = [trim s] := by
  rw [lineTexts, pieces_of_notMem h, List.map_singleton, List.filter_cons_of_pos]
  · rfl
  · simpa using hne

/-- The lines of a text do not depend on the blanks at its ends. -/
theorem ignoresBlanks_lineTexts : IgnoresBlanks lineTexts := by
  constructor
  · intro c s hc
    by_cases hn : c = '\n'
    · rw [hn]
      exact lineTexts_append [] s
    · obtain ⟨first, others, hp⟩ := exists_pieces '\n' s
      rw [lineTexts, lineTexts, pieces_cons hn hp, hp, List.map_cons, List.map_cons,
        ignoresBlanks_trim.cons first hc]
  · intro c s hc
    by_cases hn : c = '\n'
    · rw [hn, lineTexts_append]
      exact List.append_nil _
    · have hpiece : '\n' ∉ [c] := fun h => hn (List.mem_singleton.mp h).symm
      rw [lineTexts, lineTexts, pieces_append, pieces_of_notMem hpiece,
        ignoresBlanks_trim.map_glue hc (pieces_ne_nil _ s)]

/-- The content lines between the occurrences of a separator. -/
def sections (separator : Char) (s : List Char) : List (List (List Char)) :=
  (pieces separator s).map lineTexts

theorem sections_ne_nil (separator : Char) (s : List Char) : sections separator s ≠ [] := by
  rw [sections, ne_eq, List.map_eq_nil_iff]
  exact pieces_ne_nil separator s

variable {separator : Char}

/-- A text without the separator is one section. -/
theorem sections_of_notMem {s : List Char} (h : separator ∉ s) :
    sections separator s = [lineTexts s] := by
  rw [sections, pieces_of_notMem h, List.map_singleton]

theorem sections_append_cons (s t : List Char) :
    sections separator (s ++ separator :: t) = sections separator s ++ sections separator t := by
  rw [sections, pieces_append_cons, List.map_append]
  rfl

/-- A line end continues the section in which it stands. -/
theorem sections_append_line (hs : isBlank separator = false) (s t : List Char) :
    sections separator (s ++ '\n' :: t) = glue (sections separator s) (sections separator t) := by
  have hne : '\n' ≠ separator := by
    rintro rfl
    cases hs
  obtain ⟨first, others, hp⟩ := exists_pieces separator t
  rw [sections, pieces_append, pieces_cons hne hp,
    map_glue (fun x => lineTexts_append x first) (pieces_ne_nil separator s), sections, sections,
    hp, List.map_cons]

theorem sections_joinWith_cons (hs : isBlank separator = false) (line : List Char)
    (lines : List (List Char)) : sections separator (joinWith ['\n'] (line :: lines)) =
      glue (sections separator line) (sections separator (joinWith ['\n'] lines)) := by
  cases lines with
  | nil => exact (glue_nil (sections_ne_nil separator line)).symm
  | cons next lines =>
    rw [joinWith, List.append_assoc, List.singleton_append, sections_append_line hs]
    exact fun h => List.cons_ne_nil _ _ h

/-- A text has the same sections as its content lines. -/
theorem sections_lineTexts (hs : isBlank separator = false) (s : List Char) :
    sections separator (joinWith ['\n'] (lineTexts s)) = sections separator s := by
  have kept : ∀ lines : List (List Char),
      sections separator
          (joinWith ['\n'] ((lines.map trim).filter fun line => !line.isEmpty)) =
        sections separator (joinWith ['\n'] lines) := by
    intro lines
    induction lines with
    | nil => rfl
    | cons line lines ih =>
      have htrim : sections separator (trim line) = sections separator line :=
        (ignoresBlanks_lineTexts.pieces hs).trim line
      rw [sections_joinWith_cons hs, ← htrim, ← ih, List.map_cons]
      by_cases he : trim line = []
      · rw [List.filter_cons_of_neg (by simp [he]), he]
        exact (nil_glue (sections_ne_nil separator _)).symm
      · rw [List.filter_cons_of_pos (by simpa using he), sections_joinWith_cons hs]
  have h := kept (pieces '\n' s)
  rwa [joinWith_pieces] at h

end PredictiveParsing.Text
