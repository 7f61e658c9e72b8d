import PredictiveParsing.Text.Blank
import PredictiveParsing.Text.WordChar

/-!
# Names and arrows in the text of a grammar

A name is written in one of six ways: between single or double quotation
marks, which are not part of it; in angle brackets, with apostrophes after
them; in square brackets; as a word, with apostrophes after it; or as any
other run of characters that are neither blank nor a quotation mark. The
ways are tried in this order, and a character with which no name starts is
passed over.

The head of a production is a name in angle brackets or a word, followed by
one of four arrows.
-/

namespace PredictiveParsing.RuleText

open Text

/-- Characters inside angle brackets. -/
def isTagChar (c : Char) : Bool := c != '<' && c != '>' && !isBlank c

/-- Characters inside square brackets. -/
def isBracketChar (c : Char) : Bool := c != ']' && !isBlank c

/-- Characters of a name that no other way of writing covers. -/
def isRunChar (c : Char) : Bool := !isBlank c && c != '\'' && c != '"'

/-- Apostrophes at the start of a text, and the rest of it. -/
def primes (s : List Char) : List Char × List Char :=
  (s.takeWhile (· == '\''), s.dropWhile (· == '\''))

/-- A name between two quotation marks, without them, and the text after. -/
def quotedName? (mark : Char) : List Char → Option (List Char × List Char)
  | [] => none
  | c :: rest =>
    if c = mark then
      match rest.dropWhile (· != mark) with
      | [] => none
      | _ :: after => some (rest.takeWhile (· != mark), after)
    else none

/-- A name in angle brackets with its apostrophes, and the text after. -/
def tagName? : List Char → Option (List Char × List Char)
  | '<' :: rest =>
    match rest.takeWhile isTagChar, rest.dropWhile isTagChar with
    | c :: inner, '>' :: after =>
      some ('<' :: c :: inner ++ '>' :: (primes after).1, (primes after).2)
    | _, _ => none
  | _ => none

/-- A name in square brackets, and the text after. -/
def bracketName? : List Char → Option (List Char × List Char)
  | '[' :: rest =>
    match rest.takeWhile isBracketChar, rest.dropWhile isBracketChar with
    | c :: inner, ']' :: after => some ('[' :: c :: inner ++ [']'], after)
    | _, _ => none
  | _ => none

/-- A word with its apostrophes, and the text after. -/
def wordName? : List Char → Option (List Char × List Char)
  | c :: rest =>
    if isNameStart c then
      let after := rest.dropWhile isWordChar
      some (c :: rest.takeWhile isWordChar ++ (primes after).1, (primes after).2)
    else none
  | [] => none

/-- A run of other characters, and the text after. -/
def runName? : List Char → Option (List Char × List Char)
  | c :: rest =>
    if isRunChar c then some (c :: rest.takeWhile isRunChar, rest.dropWhile isRunChar) else none
  | [] => none

/-- The name with which a text starts, and the text after it. -/
def nextName? (s : List Char) : Option (List Char × List Char) :=
  quotedName? '\'' s <|> quotedName? '"' s <|> tagName? s <|> bracketName? s <|> wordName? s <|>
    runName? s

theorem length_dropWhile_le (p : Char → Bool) (s : List Char) :
    (s.dropWhile p).length ≤ s.length := (List.dropWhile_sublist p).length_le

theorem quotedName?_shorter {mark : Char} {s name after : List Char}
    (h : quotedName? mark s = some (name, after)) : after.length < s.length := by
  cases s with
  | nil => cases h
  | cons c rest =>
    simp only [quotedName?] at h
    split at h
    · have hl := length_dropWhile_le (· != mark) rest
      split at h
      · cases h
      · next d t hd =>
        simp only [Option.some.injEq, Prod.mk.injEq] at h
        rw [hd] at hl
        simp only [List.length_cons] at hl ⊢
        rw [← h.2]
        omega
    · cases h

theorem tagName?_shorter {s name after : List Char} (h : tagName? s = some (name, after)) :
    after.length < s.length := by
  unfold tagName? at h
  split at h
  · next rest =>
    split at h
    · next c inner t _ hd =>
      simp only [Option.some.injEq, Prod.mk.injEq] at h
      have h1 := length_dropWhile_le isTagChar rest
      have h2 := length_dropWhile_le (· == '\'') t
      rw [hd] at h1
      rw [← h.2]
      simp only [primes, List.length_cons] at *
      omega
    · cases h
  · cases h

theorem bracketName?_shorter {s name after : List Char} (h : bracketName? s = some (name, after)) :
    after.length < s.length := by
  unfold bracketName? at h
  split at h
  · next rest =>
    split at h
    · next c inner t _ hd =>
      simp only [Option.some.injEq, Prod.mk.injEq] at h
      have h1 := length_dropWhile_le isBracketChar rest
      rw [hd] at h1
      rw [← h.2]
      simp only [List.length_cons] at *
      omega
    · cases h
  · cases h

theorem wordName?_shorter {s name after : List Char} (h : wordName? s = some (name, after)) :
    after.length < s.length := by
  unfold wordName? at h
  split at h
  · next c rest =>
    split at h
    · simp only [Option.some.injEq, Prod.mk.injEq] at h
      have h1 := length_dropWhile_le isWordChar rest
      have h2 := length_dropWhile_le (· == '\'') (rest.dropWhile isWordChar)
      rw [← h.2]
      simp only [primes, List.length_cons] at *
      omega
    · cases h
  · cases h

theorem runName?_shorter {s name after : List Char} (h : runName? s = some (name, after)) :
    after.length < s.length := by
  unfold runName? at h
  split at h
  · next c rest =>
    split at h
    · simp only [Option.some.injEq, Prod.mk.injEq] at h
      have h1 := length_dropWhile_le isRunChar rest
      rw [← h.2]
      simp only [List.length_cons]
      omega
    · cases h
  · cases h

/-- A name takes at least one character. -/
theorem nextName?_shorter {s name after : List Char} (h : nextName? s = some (name, after)) :
    after.length < s.length := by
  simp only [nextName?, Option.orElse_eq_orElse, Option.orElse_eq_or, Option.or_eq_some_iff] at h
  rcases h with h | ⟨_, h | ⟨_, h | ⟨_, h | ⟨_, h | ⟨_, h⟩⟩⟩⟩⟩
  · exact quotedName?_shorter h
  · exact quotedName?_shorter h
  · exact tagName?_shorter h
  · exact bracketName?_shorter h
  · exact wordName?_shorter h
  · exact runName?_shorter h

/-- The names of a text in their order. -/
def names (s : List Char) : List (List Char) :=
  match s with
  | [] => []
  | c :: rest =>
    match _found : nextName? (c :: rest) with
    | some (name, after) => name :: names after
    | none => names rest
termination_by s.length
decreasing_by
  · exact nextName?_shorter _found
  · exact Nat.lt_succ_self _

/-- The name with which a head starts, and the text after it. -/
def headName? (s : List Char) : Option (List Char × List Char) := tagName? s <|> wordName? s

/-- The text after an arrow at its start. A colon is no arrow where an equals
sign follows it. -/
def afterArrow? : List Char → Option (List Char)
  | '-' :: '>' :: rest => some rest
  | ':' :: ':' :: '=' :: rest => some rest
  | ':' :: '=' :: _ => none
  | ':' :: rest => some rest
  | '=' :: rest => some rest
  | _ => none

/-- The head of a production and what follows the arrow, without the blanks
around them; nothing if the text does not start a production. -/
def splitHead? (s : List Char) : Option (List Char × List Char) :=
  match headName? (trimStart s) with
  | none => none
  | some (name, after) =>
    match afterArrow? (trimStart after) with
    | none => none
    | some body => some (name, trimStart body)

end PredictiveParsing.RuleText
