import PredictiveParsing.Text.Escape

/-!
# Escaped texts and decimals

What a chain of replacements leaves of a text. A character that is replaced by
others is gone, and a replacement that does not bring it back leaves it away.
A text that is typeset character by character can be read back, since what a
character begins with says where its command ends; a closing brace stands at
the beginning of no command, so that the end of a group can be told from its
contents. Numbers are written in digits alone, and end where the digits end.
-/

namespace PredictiveParsing.Text

/-- A replaced character is gone, unless its replacement brings it back. -/
theorem notMem_replaceChar {c : Char} {r : String} (h : c ∉ r.toList) (s : List Char) :
    c ∉ replaceChar c r s := by
  rw [replaceChar, List.mem_flatMap]
  rintro ⟨d, -, hd⟩
  split at hd
  · exact h hd
  · next hne => exact hne (List.mem_singleton.mp hd).symm

/-- A character that is away stays away, unless a replacement brings it in. -/
theorem notMem_replaceChar_of_notMem {c d : Char} {r : String} (h : c ∉ r.toList) {s : List Char}
    (hs : c ∉ s) : c ∉ replaceChar d r s := by
  rw [replaceChar, List.mem_flatMap]
  rintro ⟨e, he, hc⟩
  split at hc
  · exact h hc
  · exact hs (List.mem_singleton.mp hc ▸ he)

/-- A label of a graph description stays on its line. -/
theorem newline_notMem_escapeDot (s : String) : '\n' ∉ (escapeDot s).toList := by
  rw [escapeDot, String.toList_ofList, dotChars]
  exact notMem_replaceChar (by decide) _

/-- The character that a typeset text begins with, and the rest of the text. A
closing brace is the end of a group. The named commands differ in the letter
behind those that they have in common. -/
def readTypeset : List Char → Option (Char × List Char)
  | [] => none
  | '\x7d' :: _ => none
  | '\x7b' :: c :: rest => some (c, rest.drop 1)
  | '\\' :: '^' :: rest => some ('^', rest.drop 2)
  | '\\' :: '~' :: rest => some ('~', rest.drop 2)
  | '\\' :: 't' :: 'e' :: 'x' :: 't' :: 'b' :: rest => some ('\\', rest.drop 10)
  | '\\' :: 't' :: 'e' :: 'x' :: 't' :: 'l' :: rest => some ('<', rest.drop 5)
  | '\\' :: 't' :: 'e' :: 'x' :: 't' :: 'g' :: rest => some ('>', rest.drop 8)
  | '\\' :: c :: rest => some (c, rest)
  | c :: rest => some (c, rest)

/-- A character that begins neither a command nor a group, and ends none, stands
for itself. -/
theorem readTypeset_cons {c : Char} (hcommand : c ≠ '\\') (hopen : c ≠ '\x7b') (hclose : c ≠ '\x7d')
    (rest : List Char) : readTypeset (c :: rest) = some (c, rest) := by
  rw [readTypeset]
  all_goals intros; contradiction

/-- A typeset character is read back, whatever follows it. -/
theorem readTypeset_append (c : Char) (rest : List Char) :
    readTypeset ((typesetChar c).toList ++ rest) = some (c, rest) := by
  unfold typesetChar
  split
  all_goals try rfl
  next hcommand hopen hclose _ _ _ _ _ _ _ _ _ _ _ =>
  rw [String.toList_ofList, List.singleton_append, readTypeset_cons hcommand hopen hclose]

/-- A group of typeset characters tells the characters and what is behind its
closing brace. -/
theorem typesetChars_append_inj {s u x y : List Char}
    (h : typesetChars s ++ '\x7d' :: x = typesetChars u ++ '\x7d' :: y) : s = u ∧ x = y := by
  have hcons : ∀ (c : Char) (s x : List Char),
      readTypeset (typesetChars (c :: s) ++ '\x7d' :: x) =
        some (c, typesetChars s ++ '\x7d' :: x) := by
    intro c s x
    rw [typesetChars, List.flatMap_cons, List.append_assoc, readTypeset_append]
    rfl
  have hnil : ∀ x : List Char, readTypeset (typesetChars [] ++ '\x7d' :: x) = none := fun _ => rfl
  induction s generalizing u with
  | nil =>
    cases u with
    | nil => exact ⟨rfl, (List.cons.inj h).2⟩
    | cons d u =>
      have hread := congrArg readTypeset h
      rw [hnil, hcons] at hread
      cases hread
  | cons c s ih =>
    have hread := congrArg readTypeset h
    cases u with
    | nil =>
      rw [hnil, hcons] at hread
      cases hread
    | cons d u =>
      rw [hcons, hcons, Option.some.injEq, Prod.mk.injEq] at hread
      obtain ⟨rfl, htail⟩ := hread
      obtain ⟨rfl, hxy⟩ := ih htail
      exact ⟨rfl, hxy⟩

/-- Decimals have no other characters than digits. -/
theorem notMem_toDigits {c : Char} (h : c.isDigit = false) (n : Nat) : c ∉ Nat.toDigits 10 n := by
  intro hc
  rw [Nat.isDigit_of_mem_toDigits (by decide) (by decide) hc] at h
  cases h

/-- The decimals of a number are read up to the first character that is no
digit, and tell the number. -/
theorem toString_append_inj {m n : Nat} {a b : Char} {x y : List Char} (ha : a.isDigit = false)
    (hb : b.isDigit = false)
    (h : (toString m).toList ++ a :: x = (toString n).toList ++ b :: y) :
    m = n ∧ a :: x = b :: y := by
  have hdigits : ∀ n : Nat, ∀ c ∈ (toString n).toList, c.isDigit = true := fun n c hc => by
    rw [Nat.toString_eq_repr, Nat.toList_repr] at hc
    exact Nat.isDigit_of_mem_toDigits (by decide) (by decide) hc
  have hread : ∀ (n : Nat) {d : Char} (z : List Char), d.isDigit = false →
      ((toString n).toList ++ d :: z).takeWhile Char.isDigit = (toString n).toList := by
    intro n d z hd
    rw [List.takeWhile_append_of_pos (hdigits n),
      List.takeWhile_cons_of_neg (by rw [hd]; exact Bool.false_ne_true), List.append_nil]
  have hsame : (toString m).toList = (toString n).toList := by
    rw [← hread m x ha, h, hread n y hb]
  refine ⟨?_, List.append_cancel_left (hsame ▸ h)⟩
  rw [Nat.toString_eq_repr, Nat.toString_eq_repr, Nat.toList_repr, Nat.toList_repr] at hsame
  rw [← Nat.ofDigitChars_toDigits (b := 10) (n := m) (by decide) (by decide), hsame,
    Nat.ofDigitChars_toDigits (by decide) (by decide)]

end PredictiveParsing.Text
