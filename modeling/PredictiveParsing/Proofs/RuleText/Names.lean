import PredictiveParsing.Proofs.Text.Lines
import PredictiveParsing.RuleText.Production

/-!
# Scanning the names of a text

A plain name is a word or a word in angle brackets, in either case with
apostrophes after it. Where it is followed by nothing, or by a character
with which no such name goes on, the scan finds the whole name and leaves
the rest, and so does the reading of a head. Blanks between names are passed
over. No character of a plain name has a meaning of its own in the notation.
-/

namespace PredictiveParsing.RuleText

open Text

/-- The plain names: a word that starts with a letter of the Latin alphabet
or the low line, or a word in angle brackets, with apostrophes after it. -/
inductive IsName : List Char → Prop
  /-- A word with its apostrophes. -/
  | word {c : Char} {more marks : List Char} (start : isNameStart c = true)
      (goesOn : ∀ d ∈ more, isWordChar d = true) (primed : ∀ d ∈ marks, d = '\'') :
      IsName (c :: more ++ marks)
  /-- A word in angle brackets with its apostrophes. -/
  | tag {inner marks : List Char} (nonempty : inner ≠ [])
      (goesOn : ∀ d ∈ inner, isWordChar d = true) (primed : ∀ d ∈ marks, d = '\'') :
      IsName ('<' :: inner ++ '>' :: marks)

/-- Characters of alternatives: those of plain names, and blanks within a
line. -/
def isContentChar (c : Char) : Bool :=
  isWordChar c || c == '\'' || c == '<' || c == '>' || isBlank c && c != '\n'

/-- No plain name goes on with this text. -/
def EndsName (rest : List Char) : Prop :=
  ∀ c, rest.head? = some c → isWordChar c = false ∧ c ≠ '\''

/-- Words have no blanks. -/
theorem not_isBlank_of_isWordChar {c : Char} (h : isWordChar c = true) : isBlank c = false := by
  by_contra hb
  rw [Bool.not_eq_false] at hb
  have codes : ∀ n ∈ List.range' 9 5 ++ List.range' 28 5 ++ wideBlanks,
      isWordChar (Char.ofNat n) = false := by decide +kernel
  have hmem : c.toNat ∈ List.range' 9 5 ++ List.range' 28 5 ++ wideBlanks := by
    simp only [isBlank, Bool.or_eq_true, Bool.and_eq_true, decide_eq_true_eq,
      List.contains_iff_mem] at hb
    rw [List.mem_append, List.mem_append, List.mem_range'_1, List.mem_range'_1]
    rcases hb with (low | low) | wide
    · exact .inl (.inl (by omega))
    · exact .inl (.inr (by omega))
    · exact .inr wide
  have hc := codes c.toNat hmem
  rw [Char.ofNat_toNat, h] at hc
  cases hc

/-- A character that is in a class differs from one that is not. -/
theorem ne_of_class {class? : Char → Bool} {c d : Char} (hc : class? c = true)
    (hd : class? d = false) : c ≠ d := by
  rintro rfl
  rw [hc] at hd
  cases hd

/-- The characters of plain names. -/
theorem IsName.forall_mem {n : List Char} (h : IsName n) :
    ∀ c ∈ n, isWordChar c = true ∨ c = '\'' ∨ c = '<' ∨ c = '>' := by
  cases h with
  | word start goesOn primed =>
    simp only [List.mem_append, List.mem_cons]
    rintro d ((rfl | hd) | hd)
    · exact .inl (isWordChar_of_isNameStart start)
    · exact .inl (goesOn d hd)
    · exact .inr (.inl (primed d hd))
  | tag nonempty goesOn primed =>
    simp only [List.mem_append, List.mem_cons]
    rintro d ((rfl | hd) | rfl | hd)
    · exact .inr (.inr (.inl rfl))
    · exact .inl (goesOn d hd)
    · exact .inr (.inr (.inr rfl))
    · exact .inr (.inl (primed d hd))

theorem IsName.isContentChar {n : List Char} (h : IsName n) :
    ∀ c ∈ n, isContentChar c = true := by
  intro c hc
  rw [RuleText.isContentChar]
  rcases h.forall_mem c hc with hw | rfl | rfl | rfl
  · rw [hw]; rfl
  all_goals rfl

/-- No character of a plain name is a blank. -/
theorem IsName.not_isBlank {n : List Char} (h : IsName n) : ∀ c ∈ n, isBlank c = false := by
  intro c hc
  rcases h.forall_mem c hc with hw | rfl | rfl | rfl
  · exact not_isBlank_of_isWordChar hw
  all_goals rfl

/-- How a plain name starts. -/
theorem IsName.exists_cons {n : List Char} (h : IsName n) :
    ∃ c more, n = c :: more ∧ (isNameStart c = true ∨ c = '<') := by
  cases h with
  | word start goesOn primed => exact ⟨_, _, rfl, .inl start⟩
  | tag nonempty goesOn primed => exact ⟨_, _, rfl, .inr rfl⟩

theorem IsName.ne_nil {n : List Char} (h : IsName n) : n ≠ [] := by
  obtain ⟨c, more, rfl, -⟩ := h.exists_cons
  exact List.cons_ne_nil _ _

/-! ### Where a name ends -/

theorem endsName_nil : EndsName [] := fun _ h => by cases h

theorem endsName_cons {c : Char} {rest : List Char} (hw : isWordChar c = false) (hc : c ≠ '\'') :
    EndsName (c :: rest) := by
  rintro d ⟨⟩
  exact ⟨hw, hc⟩

/-- A blank ends a name. -/
theorem endsName_of_isBlank {c : Char} {rest : List Char} (hc : isBlank c = true) :
    EndsName (c :: rest) := by
  refine endsName_cons ?_ (ne_of_class hc rfl)
  by_contra hw
  rw [Bool.not_eq_false] at hw
  rw [not_isBlank_of_isWordChar hw] at hc
  cases hc

/-- A run of characters of a class is cut off before a character of another. -/
theorem takeWhile_run {p : Char → Bool} {run rest : List Char} (h : ∀ d ∈ run, p d = true)
    (hr : ∀ c, rest.head? = some c → p c = false) : (run ++ rest).takeWhile p = run := by
  rw [List.takeWhile_append_of_pos h]
  cases rest with
  | nil => exact List.append_nil _
  | cons c rest => rw [List.takeWhile_cons_of_neg (by simp [hr c rfl]), List.append_nil]

theorem dropWhile_run {p : Char → Bool} {run rest : List Char} (h : ∀ d ∈ run, p d = true)
    (hr : ∀ c, rest.head? = some c → p c = false) : (run ++ rest).dropWhile p = rest := by
  rw [List.dropWhile_append_of_pos h]
  cases rest with
  | nil => rfl
  | cons c rest => rw [List.dropWhile_cons_of_neg (by simp [hr c rfl])]

/-- The apostrophes after a name are all taken. -/
theorem primes_append {marks rest : List Char} (h : ∀ d ∈ marks, d = '\'') (hr : EndsName rest) :
    primes (marks ++ rest) = (marks, rest) := by
  have hmarks : ∀ d ∈ marks, (d == '\'') = true := fun d hd => beq_iff_eq.mpr (h d hd)
  have hrest : ∀ c, rest.head? = some c → (c == '\'') = false :=
    fun c hc => beq_eq_false_iff_ne.mpr (hr c hc).2
  rw [primes, takeWhile_run hmarks hrest, dropWhile_run hmarks hrest]

/-- A word is read to its end. -/
theorem wordName?_append {c : Char} {more marks rest : List Char} (start : isNameStart c = true)
    (goesOn : ∀ d ∈ more, isWordChar d = true) (primed : ∀ d ∈ marks, d = '\'')
    (hr : EndsName rest) :
    wordName? (c :: more ++ marks ++ rest) = some (c :: more ++ marks, rest) := by
  have stops : ∀ d, (marks ++ rest).head? = some d → isWordChar d = false := by
    intro d hd
    cases marks with
    | nil => exact (hr d hd).1
    | cons mark marks =>
      cases hd
      rw [primed d List.mem_cons_self]
      rfl
  rw [List.cons_append, List.cons_append, wordName?, if_pos start, List.append_assoc]
  dsimp only
  rw [takeWhile_run goesOn stops, dropWhile_run goesOn stops, primes_append primed hr]
  rfl

/-- A name in angle brackets is read to its end. -/
theorem tagName?_append {inner marks rest : List Char} (nonempty : inner ≠ [])
    (goesOn : ∀ d ∈ inner, isWordChar d = true) (primed : ∀ d ∈ marks, d = '\'')
    (hr : EndsName rest) :
    tagName? ('<' :: inner ++ '>' :: marks ++ rest) =
      some ('<' :: inner ++ '>' :: marks, rest) := by
  have inside : ∀ d ∈ inner, isTagChar d = true := by
    intro d hd
    have hw := goesOn d hd
    have hopen : d ≠ '<' := ne_of_class hw rfl
    have hclose : d ≠ '>' := ne_of_class hw rfl
    simp [isTagChar, hopen, hclose, not_isBlank_of_isWordChar hw]
  have stops : ∀ d, ('>' :: (marks ++ rest)).head? = some d → isTagChar d = false := by
    rintro d ⟨⟩
    rfl
  have htext : '<' :: inner ++ '>' :: marks ++ rest = '<' :: (inner ++ '>' :: (marks ++ rest)) := by
    simp
  rw [htext, tagName?, takeWhile_run inside stops, dropWhile_run inside stops]
  cases inner with
  | nil => exact absurd rfl nonempty
  | cons first others => simp only [primes_append primed hr]

/-- A text that starts otherwise has no name in angle brackets at its start. -/
theorem tagName?_of_isNameStart {c : Char} {s : List Char} (start : isNameStart c = true) :
    tagName? (c :: s) = none := by
  have hc : c ≠ '<' := ne_of_class start rfl
  rw [tagName?]
  rintro _ ⟨⟩
  exact hc rfl

/-- The head of a production is a plain name as it stands. -/
theorem headName?_append {n rest : List Char} (h : IsName n) (hr : EndsName rest) :
    headName? (n ++ rest) = some (n, rest) := by
  cases h with
  | word start goesOn primed =>
    have hword := wordName?_append start goesOn primed hr
    rw [List.cons_append, List.cons_append] at hword ⊢
    rw [headName?, tagName?_of_isNameStart start, hword]
    rfl
  | tag nonempty goesOn primed =>
    rw [headName?, tagName?_append nonempty goesOn primed hr]
    rfl

/-- The scan finds a plain name as it stands. -/
theorem nextName?_append {n rest : List Char} (h : IsName n) (hr : EndsName rest) :
    nextName? (n ++ rest) = some (n, rest) := by
  have differs : ∀ mark, isNameStart mark = false → mark ≠ '<' →
      ∀ c more, n = c :: more → c ≠ mark := by
    rintro mark hstart hne c more rfl
    obtain ⟨d, others, hcons, hd⟩ := h.exists_cons
    cases hcons
    rcases hd with hd | rfl
    · exact ne_of_class hd hstart
    · exact hne.symm
  have quoted : ∀ mark, isNameStart mark = false → mark ≠ '<' →
      quotedName? mark (n ++ rest) = none := by
    intro mark hstart hne
    obtain ⟨c, more, hcons, -⟩ := h.exists_cons
    rw [hcons, List.cons_append, quotedName?, if_neg (differs mark hstart hne c more hcons)]
  have hbracket : bracketName? (n ++ rest) = none := by
    obtain ⟨c, more, hcons, -⟩ := h.exists_cons
    have hc := differs '[' rfl (by decide) c more hcons
    rw [hcons, List.cons_append, bracketName?]
    rintro _ ⟨⟩
    exact hc rfl
  rw [nextName?, quoted '\'' rfl (by decide), quoted '"' rfl (by decide), hbracket]
  have hhead := headName?_append h hr
  rw [headName?] at hhead
  cases htag : tagName? (n ++ rest) with
  | none =>
    rw [htag] at hhead
    have hword : wordName? (n ++ rest) = some (n, rest) := hhead
    rw [hword]
    rfl
  | some found =>
    rw [htag] at hhead
    exact hhead

/-! ### All names of a text -/

theorem names_nil : names [] = [] := by rw [names]

/-- The name with which a text starts is the first of its names. -/
theorem names_of_nextName? {s n rest : List Char} (h : nextName? s = some (n, rest)) :
    names s = n :: names rest := by
  cases s with
  | nil => cases h
  | cons c more =>
    rw [names]
    split
    · next found =>
      rw [h] at found
      cases found
      rfl
    · next found =>
      rw [h] at found
      cases found

/-- A plain name is the first name of the text that starts with it. -/
theorem names_append {n rest : List Char} (h : IsName n) (hr : EndsName rest) :
    names (n ++ rest) = n :: names rest :=
  names_of_nextName? (nextName?_append h hr)

/-- No name starts with a blank. -/
theorem names_cons {c : Char} (hc : isBlank c = true) (rest : List Char) :
    names (c :: rest) = names rest := by
  have hstart : isNameStart c = false := by
    by_contra h
    rw [Bool.not_eq_false] at h
    rw [not_isBlank_of_isWordChar (isWordChar_of_isNameStart h)] at hc
    cases hc
  have quoted : ∀ mark, isBlank mark = false → quotedName? mark (c :: rest) = none :=
    fun mark hmark => by rw [quotedName?, if_neg (ne_of_class hc hmark)]
  have htag : tagName? (c :: rest) = none := by
    rw [tagName?]
    rintro _ ⟨⟩
    cases hc
  have hbracket : bracketName? (c :: rest) = none := by
    rw [bracketName?]
    rintro _ ⟨⟩
    cases hc
  have hword : wordName? (c :: rest) = none := by
    rw [wordName?, if_neg (by rw [hstart]; exact Bool.false_ne_true)]
  have hrun : runName? (c :: rest) = none := by
    rw [runName?, if_neg]
    simp [isRunChar, hc]
  have hnext : nextName? (c :: rest) = none := by
    rw [nextName?, quoted _ rfl, quoted _ rfl, htag, hbracket, hword, hrun]
    rfl
  rw [names]
  split
  · next found =>
    rw [hnext] at found
    cases found
  · rfl

/-- Blanks before the first name are passed over. -/
theorem names_append_of_isBlanks {gap : List Char} (h : IsBlanks gap) (rest : List Char) :
    names (gap ++ rest) = names rest := by
  induction gap with
  | nil => rfl
  | cons c gap ih =>
    obtain ⟨hc, hgap⟩ := List.forall_mem_cons.mp h
    rw [List.cons_append, names_cons hc, ih hgap]

end PredictiveParsing.RuleText
