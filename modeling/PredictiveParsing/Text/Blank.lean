/-!
# Blanks and the cutting of text

Text is cut into lines and fields at single separator characters and
trimmed of the blanks at its two ends. The blanks are the white space
characters of Unicode and the four ASCII separators of files, groups,
records and units; the zero-width space and the byte-order mark are not
among them.
-/

namespace PredictiveParsing.Text

/-- The blank characters from code point 128 on. -/
def wideBlanks : List Nat :=
  [0x85, 0xa0, 0x1680, 0x2000, 0x2001, 0x2002, 0x2003, 0x2004, 0x2005, 0x2006, 0x2007, 0x2008,
    0x2009, 0x200a, 0x2028, 0x2029, 0x202f, 0x205f, 0x3000]

/-- Whether a character is a blank. -/
def isBlank (c : Char) : Bool :=
  (9 ≤ c.toNat && c.toNat ≤ 13) || (28 ≤ c.toNat && c.toNat ≤ 32) || wideBlanks.contains c.toNat

/-- A text without its leading blanks. -/
def trimStart (s : List Char) : List Char := s.dropWhile isBlank

/-- A text without its trailing blanks. -/
def trimEnd (s : List Char) : List Char := (s.reverse.dropWhile isBlank).reverse

/-- A text without the blanks at its two ends. -/
def trim (s : List Char) : List Char := trimEnd (trimStart s)

/-- The pieces of a text between the occurrences of a separator. A text
without the separator is its only piece, the empty text included. -/
def pieces (separator : Char) : List Char → List (List Char)
  | [] => [[]]
  | c :: rest =>
    if c = separator then [] :: pieces separator rest
    else match pieces separator rest with
      | [] => [[c]]
      | first :: others => (c :: first) :: others

/-- The pieces of a list of texts put together with a text between them. -/
def joinWith (separator : List Char) : List (List Char) → List Char
  | [] => []
  | [piece] => piece
  | piece :: rest => piece ++ separator ++ joinWith separator rest

theorem pieces_ne_nil (separator : Char) (s : List Char) : pieces separator s ≠ [] := by
  induction s with
  | nil => simp [pieces]
  | cons c rest ih =>
    simp only [pieces]
    split
    · simp
    · split <;> simp

/-- Putting the pieces together again with the separator gives the text. -/
theorem joinWith_pieces (separator : Char) (s : List Char) :
    joinWith [separator] (pieces separator s) = s := by
  induction s with
  | nil => rfl
  | cons c rest ih =>
    simp only [pieces]
    split
    · next h =>
      cases hp : pieces separator rest with
      | nil => exact absurd hp (pieces_ne_nil separator rest)
      | cons first others => rw [hp] at ih; simp [joinWith, ih, h]
    · split
      · next hp => exact absurd hp (pieces_ne_nil separator rest)
      · next first others hp =>
        rw [hp] at ih
        cases others with
        | nil => simpa [joinWith] using ih
        | cons second more => simpa [joinWith] using ih

/-- No piece holds the separator. -/
theorem not_mem_of_mem_pieces {separator : Char} {s piece : List Char}
    (h : piece ∈ pieces separator s) : separator ∉ piece := by
  induction s generalizing piece with
  | nil => simp only [pieces, List.mem_singleton] at h; simp [h]
  | cons c rest ih =>
    simp only [pieces] at h
    split at h
    · rcases List.mem_cons.mp h with h | h
      · simp [h]
      · exact ih h
    · next hc =>
      split at h
      · next hp => exact absurd hp (pieces_ne_nil separator rest)
      · next first others hp =>
        rcases List.mem_cons.mp h with h | h
        · subst h
          have := ih (hp ▸ List.mem_cons_self)
          simp only [List.mem_cons, not_or]
          exact ⟨fun e => hc e.symm, this⟩
        · exact ih (hp ▸ List.mem_cons_of_mem _ h)

end PredictiveParsing.Text
