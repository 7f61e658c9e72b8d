import Mathlib.Data.List.Infix
import PredictiveParsing.Proofs.Text.Lines
import PredictiveParsing.RuleText.Production

/-!
# Comments do not count

The two kinds of comments are taken out one after the other, those that end
with their lines first. Behind a text that opens no comment, a comment on
lines of its own leaves an empty line at most, so that the grammar that is
read is the one without the comment. A comment between a slash and a star and
a star and a slash may hold the opening of either kind. Two slashes in it cut
their line, though, and so they must not stand in the line in which it is
closed.
-/

namespace PredictiveParsing.RuleText

open Text

/-- A text in which no comment is opened. -/
def Uncommented (s : List Char) : Prop := ¬['/', '/'] <:+: s ∧ ¬['/', '*'] <:+: s

instance (s : List Char) : Decidable (Uncommented s) := inferInstanceAs (Decidable (_ ∧ _))

/-- Wherever two slashes stand in a text, a line end follows. -/
def SlashesCutLines (s : List Char) : Prop := ∀ rest ∈ s.tails, ['/', '/'] <+: rest → '\n' ∈ rest

instance (s : List Char) : Decidable (SlashesCutLines s) :=
  inferInstanceAs (Decidable (∀ rest ∈ s.tails, _))

/-- A text that holds no comment: no two slashes, and no slash and star that
are closed. -/
def Commentless (s : List Char) : Prop :=
  ¬['/', '/'] <:+: s ∧ ∀ rest ∈ s.tails, ['/', '*'] <+: rest → ¬['*', '/'] <:+: rest.drop 2

instance (s : List Char) : Decidable (Commentless s) := inferInstanceAs (Decidable (_ ∧ _))

/-- A text that ends the line before it: it is empty or begins with a line
end. -/
def EndsLine (s : List Char) : Prop := s = [] ∨ ∃ rest, s = '\n' :: rest

variable {c : Char} {s t : List Char}

/-- Where a pair of characters does not occur in a text that begins with a
character: it does not stand at the start, nor does it occur behind. -/
theorem notInfix_cons_iff {a b : Char} :
    ¬[a, b] <:+: c :: s ↔ (c = a → s.head? ≠ some b) ∧ ¬[a, b] <:+: s := by
  rw [List.infix_cons_iff, not_or]
  refine and_congr_left fun _ => ⟨fun h hc hs => ?_, fun h => ?_⟩
  · cases s with
    | nil => cases hs
    | cons d rest =>
      cases hs
      exact h ⟨rest, by rw [hc]; rfl⟩
  · rintro ⟨rest, hrest⟩
    cases hrest
    exact h rfl rfl

/-! ### Comments that end with their lines -/

/-- A character that does not open a comment stays. -/
theorem dropLineComments_cons (h : c = '/' → s.head? ≠ some '/') :
    dropLineComments (c :: s) = c :: dropLineComments s := by
  obtain ⟨first, others, hp⟩ := exists_pieces '\n' s
  by_cases hc : c = '\n'
  · rw [dropLineComments, dropLineComments, pieces, if_pos hc, hp, hc]
    rfl
  · have hcut : cutLineComment (c :: first) = c :: cutLineComment first := by
      refine cutLineComment.eq_2 c first ?_
      rintro rest rfl rfl
      refine h rfl ?_
      rw [← joinWith_pieces '\n' s, hp]
      cases others <;> rfl
    rw [dropLineComments, dropLineComments, pieces_cons hc hp, hp, List.map_cons, hcut]
    cases others <;> rfl

/-- A character other than a slash stays. -/
theorem dropLineComments_cons_of_ne (h : c ≠ '/') (s : List Char) :
    dropLineComments (c :: s) = c :: dropLineComments s :=
  dropLineComments_cons fun e => absurd e h

theorem dropLineComments_nil : dropLineComments [] = [] := rfl

theorem dropLineComments_newline (t : List Char) :
    dropLineComments ('\n' :: t) = '\n' :: dropLineComments t :=
  dropLineComments_cons_of_ne (by decide) t

/-- Two slashes cut the rest of their line. -/
theorem dropLineComments_line (h : '\n' ∉ s) (ht : EndsLine t) :
    dropLineComments ('/' :: '/' :: (s ++ t)) = dropLineComments t := by
  have hline : '\n' ∉ '/' :: '/' :: s := by simpa using h
  rcases ht with rfl | ⟨rest, rfl⟩
  · rw [List.append_nil, dropLineComments, pieces_of_notMem hline]
    rfl
  · obtain ⟨first, others, hp⟩ := exists_pieces '\n' rest
    have hpieces := pieces_append_cons '\n' ('/' :: '/' :: s) rest
    rw [pieces_of_notMem hline] at hpieces
    rw [dropLineComments, ← List.cons_append, ← List.cons_append, hpieces, dropLineComments, pieces,
      if_pos rfl]
    rfl

/-- A text without two slashes in a row stays, if none are made at its end. -/
theorem dropLineComments_append (h : ¬['/', '/'] <:+: s)
    (hend : s.getLast? = some '/' → t.head? ≠ some '/') :
    dropLineComments (s ++ t) = s ++ dropLineComments t := by
  induction s with
  | nil => rfl
  | cons c rest ih =>
    obtain ⟨hfirst, hrest⟩ := notInfix_cons_iff.mp h
    cases rest with
    | nil =>
      refine dropLineComments_cons fun hc => hend ?_
      rw [hc]
      rfl
    | cons d more =>
      have hstays := ih hrest fun he => hend he
      rw [List.cons_append, dropLineComments_cons, hstays]
      · rfl
      · exact fun hc => hfirst hc

/-! ### Comments that are closed -/

theorem closes_iff : closes s = true ↔ ['*', '/'] <:+: s := by
  induction s using closes.induct with
  | case1 rest =>
    rw [closes]
    exact iff_of_true rfl ⟨[], rest, rfl⟩
  | case2 c rest hc ih =>
    rw [closes, ih, List.infix_cons_iff]
    · refine ⟨.inr, fun h => h.resolve_left ?_⟩
      rintro ⟨more, hmore⟩
      cases hmore
      exact hc more rfl rfl
    · exact hc
  | case3 =>
    rw [closes]
    exact iff_of_false Bool.false_ne_true (by simp)

/-- Within a comment all is left out up to its end. -/
theorem dropBlocks_true_append (h : ¬['*', '/'] <:+: s) (t : List Char) :
    dropBlocks true (s ++ '*' :: '/' :: t) = dropBlocks false t := by
  induction s with
  | nil => rw [List.nil_append, dropBlocks]
  | cons c rest ih =>
    obtain ⟨hfirst, hrest⟩ := notInfix_cons_iff.mp h
    rw [List.cons_append, dropBlocks, ih hrest]
    rintro more rfl hmore
    cases rest with
    | nil => cases hmore
    | cons d others =>
      cases hmore
      exact hfirst rfl rfl

/-- A closed comment is left out. -/
theorem dropBlocks_block (h : ¬['*', '/'] <:+: s) (t : List Char) :
    dropBlocks false ('/' :: '*' :: (s ++ '*' :: '/' :: t)) = dropBlocks false t := by
  have hcloses : closes (s ++ '*' :: '/' :: t) = true :=
    closes_iff.mpr ⟨s, t, by simp⟩
  rw [dropBlocks, if_pos hcloses, dropBlocks_true_append h]

/-- A text that opens no comment of this kind stays, if none is opened at its
end. -/
theorem dropBlocks_append (h : ¬['/', '*'] <:+: s)
    (hend : s.getLast? = some '/' → t.head? ≠ some '*') :
    dropBlocks false (s ++ t) = s ++ dropBlocks false t := by
  induction s with
  | nil => rfl
  | cons c rest ih =>
    obtain ⟨hfirst, hrest⟩ := notInfix_cons_iff.mp h
    cases rest with
    | nil =>
      rw [List.singleton_append, dropBlocks]
      · rfl
      · rintro more rfl rfl
        exact hend rfl rfl
    | cons d more =>
      rw [List.cons_append, dropBlocks, ih hrest fun he => hend he]
      · rfl
      · rintro others rfl hothers
        cases hothers
        exact hfirst rfl rfl

/-! ### A comment within a text -/

/-- Only a slash at the start of a text is one when its line comments are
out. -/
theorem head?_of_dropLineComments (h : (dropLineComments s).head? = some '/') :
    s.head? = some '/' := by
  cases s with
  | nil => exact h
  | cons c rest =>
    by_cases hc : c = '/'
    · rw [hc]
      rfl
    · rw [dropLineComments_cons_of_ne hc] at h
      exact h

theorem SlashesCutLines.of_suffix (h : SlashesCutLines t) (hs : s <:+ t) : SlashesCutLines s :=
  fun rest hrest => h rest ((List.mem_tails _ _).mpr (((List.mem_tails _ _).mp hrest).trans hs))

/-- A comment that is closed, but not in a line with two slashes, is closed
when such lines are cut. -/
theorem exists_dropLineComments_block (hs : ¬['*', '/'] <:+: s) (hcut : SlashesCutLines s)
    (ht : t.head? ≠ some '/') : ∃ comment, ¬['*', '/'] <:+: comment ∧
      dropLineComments (s ++ '*' :: '/' :: t) = comment ++ '*' :: '/' :: dropLineComments t := by
  induction hlength : s.length using Nat.strong_induction_on generalizing s with
  | _ n ih =>
  cases s with
  | nil =>
    refine ⟨[], by simp, ?_⟩
    rw [List.nil_append, dropLineComments_cons_of_ne (by decide), dropLineComments_cons fun _ => ht]
    rfl
  | cons c rest =>
    obtain ⟨hfirst, hrest⟩ := notInfix_cons_iff.mp hs
    have hhead : (rest ++ '*' :: '/' :: t).head? = some '/' → rest.head? = some '/' := by
      cases rest with
      | nil => simp
      | cons d more => exact id
    by_cases hslashes : c = '/' ∧ rest.head? = some '/'
    -- The line is cut, and the comment goes on behind it.
    · obtain ⟨rfl, hslash⟩ := hslashes
      obtain ⟨more, rfl⟩ : ∃ more, rest = '/' :: more := List.head?_eq_some_iff.mp hslash
      have hbreak := hcut _ ((List.mem_tails _ _).mpr List.suffix_rfl) ⟨more, rfl⟩
      have hmem : '\n' ∈ more := by simpa using hbreak
      obtain ⟨line, after, rfl, hline⟩ := List.eq_append_cons_of_mem hmem
      have hsuffix : after <:+ '/' :: '/' :: (line ++ '\n' :: after) :=
        ⟨'/' :: '/' :: (line ++ ['\n']), by simp⟩
      have hshort : after.length < n := by
        rw [← hlength]
        simp only [List.length_cons, List.length_append]
        omega
      obtain ⟨comment, hcomment, hdrop⟩ :=
        ih _ hshort (fun h => hs (h.trans hsuffix.isInfix)) (hcut.of_suffix hsuffix) rfl
      refine ⟨'\n' :: comment, notInfix_cons_iff.mpr ⟨fun e => absurd e (by decide), hcomment⟩, ?_⟩
      rw [List.cons_append, List.cons_append, List.append_assoc, List.cons_append,
        dropLineComments_line hline (.inr ⟨_, rfl⟩), dropLineComments_newline, hdrop]
      rfl
    · have hshort : rest.length < n := by
        rw [← hlength]
        exact Nat.lt_succ_self _
      obtain ⟨comment, hcomment, hdrop⟩ :=
        ih _ hshort hrest (hcut.of_suffix (List.suffix_cons c rest)) rfl
      refine ⟨c :: comment, notInfix_cons_iff.mpr ⟨fun hc hslash => ?_, hcomment⟩, ?_⟩
      · refine hfirst hc (hhead (head?_of_dropLineComments ?_))
        obtain ⟨more, rfl⟩ := List.head?_eq_some_iff.mp hslash
        rw [hdrop]
        rfl
      · rw [List.cons_append,
          dropLineComments_cons fun hc hslash => hslashes ⟨hc, hhead hslash⟩, hdrop]
        rfl

/-- A text that opens no comment stays, if none is opened at its end. -/
theorem dropComments_append (h : Uncommented s)
    (hline : s.getLast? = some '/' → t.head? ≠ some '/')
    (hblock : s.getLast? = some '/' → (dropLineComments t).head? ≠ some '*') :
    dropComments (s ++ t) = s ++ dropComments t := by
  rw [dropComments, dropLineComments_append h.1 hline, dropBlocks_append h.2 hblock]
  rfl

/-- No comment is opened where a line ends. -/
theorem dropComments_append_of_endsLine (h : Uncommented s) (ht : EndsLine t) :
    dropComments (s ++ t) = s ++ dropComments t := by
  rcases ht with rfl | ⟨rest, rfl⟩
  · refine dropComments_append h (fun _ => by simp) fun _ => ?_
    rw [dropLineComments_nil]
    simp
  · refine dropComments_append h (fun _ => by simp) fun _ => ?_
    rw [dropLineComments_newline]
    simp

theorem dropComments_newline (t : List Char) :
    dropComments ('\n' :: t) = '\n' :: dropComments t := by
  rw [dropComments, dropLineComments_newline, dropBlocks]
  · rfl
  · exact fun _ e => absurd e (by decide)

/-- Of a comment that ends with its line nothing is left. -/
theorem dropComments_line (h : '\n' ∉ s) (ht : EndsLine t) :
    dropComments ('/' :: '/' :: (s ++ t)) = dropComments t := by
  rw [dropComments, dropLineComments_line h ht]
  rfl

/-- Of a closed comment nothing is left. -/
theorem dropComments_block (hs : ¬['*', '/'] <:+: s) (hcut : SlashesCutLines s)
    (ht : t.head? ≠ some '/') :
    dropComments ('/' :: '*' :: (s ++ '*' :: '/' :: t)) = dropComments t := by
  obtain ⟨comment, hcomment, hdrop⟩ := exists_dropLineComments_block hs hcut ht
  rw [dropComments, dropLineComments_cons (by simp), dropLineComments_cons_of_ne (by decide),
    hdrop, dropBlocks_block hcomment]
  rfl

/-- A text without comments stays as it is. -/
theorem dropComments_of_commentless (h : Commentless s) : dropComments s = s := by
  have hblocks : ∀ u : List Char, u <:+ s → dropBlocks false u = u := by
    intro u hu
    induction u with
    | nil => rw [dropBlocks]
    | cons c rest ih =>
      by_cases hopen : ['/', '*'] <+: c :: rest
      · obtain ⟨more, hmore⟩ := hopen
        cases hmore
        have hclosed := h.2 _ ((List.mem_tails _ _).mpr hu) ⟨more, rfl⟩
        have hcloses : ¬closes more = true := fun e => hclosed (closes_iff.mp e)
        show dropBlocks false ('/' :: '*' :: more) = '/' :: '*' :: more
        rw [dropBlocks, if_neg hcloses]
      · rw [dropBlocks, ih ((List.suffix_cons c rest).trans hu)]
        rintro more rfl rfl
        exact hopen ⟨more, rfl⟩
  have hlines : dropLineComments s = s := by
    have happend := dropLineComments_append (t := []) h.1 fun _ => by simp
    rwa [List.append_nil, dropLineComments_nil, List.append_nil] at happend
  rw [dropComments, hlines, hblocks s List.suffix_rfl]

/-- A text without slashes has no comments. -/
theorem dropComments_of_notMem (h : '/' ∉ s) : dropComments s = s := by
  have hslash : ∀ {c : Char} {u : List Char}, u <:+: s → ¬['/', c] <:+: u :=
    fun hu hpair => h (hu.mem (hpair.mem List.mem_cons_self))
  refine dropComments_of_commentless ⟨hslash List.infix_rfl, fun rest hrest hopen => ?_⟩
  exact absurd hopen.isInfix (hslash ((List.mem_tails _ _).mp hrest).isInfix)

/-! ### Reading a text with a comment -/

/-- A grammar is read from the content lines of a text. -/
theorem read_congr {text other : String}
    (h : contentLines text.toList = contentLines other.toList) (start : Option String) :
    read text start = read other start := by
  rw [read, readProductions, h]
  rfl

theorem contentLines_eq (s : List Char) : contentLines s = lineTexts (dropComments s) := rfl

/-- A line end at the start of a text does not count. -/
theorem contentLines_newline (t : List Char) : contentLines ('\n' :: t) = contentLines t := by
  rw [contentLines_eq, dropComments_newline, ignoresBlanks_lineTexts.cons _ rfl, contentLines_eq]

/-- Where a line ends, the content lines of a text are cut in two. -/
theorem contentLines_append_of_endsLine (h : Uncommented s) (ht : EndsLine t) :
    contentLines (s ++ t) = lineTexts s ++ contentLines t := by
  rw [contentLines_eq, dropComments_append_of_endsLine h ht]
  rcases ht with rfl | ⟨rest, rfl⟩
  · exact (congrArg lineTexts (List.append_nil s)).trans (List.append_nil _).symm
  · rw [dropComments_newline, lineTexts_append, contentLines_newline, contentLines_eq]

/-- What is taken out of a text before the end of a line does not count, on a
line of its own or behind a text that does not end in a slash. -/
theorem contentLines_append_comment {gap comment : List Char} (h : Uncommented s)
    (hgap : gap = ['\n'] ∨ gap = [] ∧ s.getLast? ≠ some '/') (ht : EndsLine t)
    (hcomment : dropComments (comment ++ t) = dropComments t) :
    contentLines (s ++ gap ++ (comment ++ t)) = contentLines (s ++ t) := by
  rcases hgap with rfl | ⟨rfl, hlast⟩
  · have hsame : contentLines (comment ++ t) = contentLines t := congrArg lineTexts hcomment
    rw [List.append_assoc, List.singleton_append,
      contentLines_append_of_endsLine h (.inr ⟨_, rfl⟩), contentLines_newline, hsame,
      contentLines_append_of_endsLine h ht]
  · have hslash : ∀ {P : Prop}, s.getLast? = some '/' → P := fun he => absurd he hlast
    rw [List.append_nil, contentLines_eq, dropComments_append h hslash hslash, hcomment,
      contentLines_eq, dropComments_append_of_endsLine h ht]

variable {before gap line block after : String}

/-- A comment before the end of a line does not count, on a line of its own or
behind other text of its line: neither one that ends with its line, nor a
closed one that has no two slashes in its last line. -/
theorem read_commented (hbefore : Uncommented before.toList)
    (hgap : gap = "\n" ∨ gap = "" ∧ before.toList.getLast? ≠ some '/')
    (hafter : EndsLine after.toList) (start : Option String) :
    ('\n' ∉ line.toList →
      read (before ++ gap ++ "//" ++ line ++ after) start = read (before ++ after) start) ∧
    (¬['*', '/'] <:+: block.toList → SlashesCutLines block.toList →
      read (before ++ gap ++ "/*" ++ block ++ "*/" ++ after) start =
        read (before ++ after) start) := by
  have hspace : gap.toList = ['\n'] ∨ gap.toList = [] ∧ before.toList.getLast? ≠ some '/' := by
    rcases hgap with rfl | ⟨rfl, hlast⟩
    · exact .inl rfl
    · exact .inr ⟨rfl, hlast⟩
  constructor
  · intro hline
    have hdrop : dropComments ('/' :: '/' :: line.toList ++ after.toList) =
        dropComments after.toList := dropComments_line hline hafter
    refine read_congr ?_ start
    have h := contentLines_append_comment hbefore hspace hafter hdrop
    simpa using h
  · intro hblock hcut
    have hslash : after.toList.head? ≠ some '/' := by
      rcases hafter with h | ⟨rest, h⟩ <;> simp [h]
    have hdrop : dropComments ('/' :: '*' :: (block.toList ++ ['*', '/']) ++ after.toList) =
        dropComments after.toList := by
      have h := dropComments_block hblock hcut hslash
      simpa using h
    refine read_congr ?_ start
    have h := contentLines_append_comment hbefore hspace hafter hdrop
    simpa using h

/-- A line comment with the opening of the other kind, and a closed comment
with both openings in it. -/
theorem read_commented_openings :
    Uncommented "S -> a | T".toList ∧ EndsLine "\nT -> b".toList ∧
      '\n' ∉ " /* T -> c".toList ∧
      read ("S -> a | T" ++ "\n" ++ "//" ++ " /* T -> c" ++ "\nT -> b") none =
        read ("S -> a | T" ++ "\nT -> b") none ∧
      ¬['*', '/'] <:+: " S -> b // c\n /* d ".toList ∧
      SlashesCutLines " S -> b // c\n /* d ".toList ∧
      read ("S -> a | T" ++ "\n" ++ "/*" ++ " S -> b // c\n /* d " ++ "*/" ++ "\nT -> b") none =
        read ("S -> a | T" ++ "\nT -> b") none := by
  have hbefore : Uncommented "S -> a | T".toList := by decide +kernel
  have hafter : EndsLine "\nT -> b".toList := .inr ⟨_, rfl⟩
  have hline : '\n' ∉ " /* T -> c".toList := by decide +kernel
  have hblock : ¬['*', '/'] <:+: " S -> b // c\n /* d ".toList := by decide +kernel
  have hcut : SlashesCutLines " S -> b // c\n /* d ".toList := by decide +kernel
  have hread := @read_commented "S -> a | T" "\n" " /* T -> c" " S -> b // c\n /* d " "\nT -> b"
    hbefore (.inl rfl) hafter none
  exact ⟨hbefore, hafter, hline, hread.1 hline, hblock, hcut, hread.2 hblock hcut⟩

/-- Two slashes in the last line of a closed comment take its end away, and
the comment is read as part of the production before it. -/
theorem read_slashes_before_close :
    Uncommented "S -> a".toList ∧ Uncommented "T -> b".toList ∧
      ¬['*', '/'] <:+: " see http://x ".toList ∧
      read ("S -> a" ++ "\n/*" ++ " see http://x " ++ "*/\n" ++ "T -> b") none ≠
        read ("S -> a" ++ "\n" ++ "T -> b") none := by
  refine ⟨by decide +kernel, by decide +kernel, by decide +kernel, fun h => ?_⟩
  have hentries := congrArg (fun result => result.toOption.map fun g => g.rules.entries) h
  exact absurd hentries (by decide +kernel)

end PredictiveParsing.RuleText
