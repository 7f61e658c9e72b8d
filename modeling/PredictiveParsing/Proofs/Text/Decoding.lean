import Mathlib.Algebra.Ring.Parity
import Mathlib.Data.List.DropRight
import PredictiveParsing.Proofs.Text.Escape

/-!
# Escaped texts are read back from left to right

A format has a code for each character that it reserves, and its escaping
replaces these characters one after the other over the whole text. That comes to
the same as writing every character by itself, provided that no replacement finds
something to replace in the codes that are already there. All codes of a format
begin with the same character, which is reserved as well, and no code is the
beginning of another one. So what a text goes on with tells whether a code comes
next, and which one, and the text can be decoded from left to right.

What is escaped for a graph description ends no quoted string, and what is escaped
for markup has no other reserved character than those that begin the codes.
-/

namespace PredictiveParsing.Text

/-- The reserved characters of a format with the codes that stand for them, in
the order in which they are replaced. -/
abbrev Codes := List (Char × String)

namespace Codes

variable {codes : Codes} {code : Char × String} {c mark : Char} {s before after : List Char}

/-- The reserved characters replaced one after the other. -/
def replaceAll (codes : Codes) (s : List Char) : List Char :=
  codes.foldl (fun text code => replaceChar code.1 code.2 text) s

/-- Decoding from left to right: where a code comes next, the character for which
it stands is read and the code is passed over, and any other character is read as
it is. A number of characters is still to be passed over. -/
def decodeFrom (codes : Codes) : (skip : Nat) → List Char → List Char
  | _, [] => []
  | skip + 1, _ :: rest => decodeFrom codes skip rest
  | 0, c :: rest =>
    match codes.find? fun code => code.2.toList.isPrefixOf (c :: rest) with
    | some code => code.1 :: decodeFrom codes (code.2.length - 1) rest
    | none => c :: decodeFrom codes 0 rest

/-- What a text decodes to. -/
def decode (codes : Codes) (s : List Char) : List Char := codes.decodeFrom 0 s

/-- What makes the texts of a format decodable. -/
structure Decodable (codes : Codes) (mark : Char) : Prop where
  /-- What is replaced later is not in the codes that are already there. -/
  chained : codes.Pairwise fun code later => later.1 ≠ code.1 ∧ later.1 ∉ code.2.toList
  /-- All codes begin with the same character. -/
  begins : ∀ code ∈ codes, code.2.toList.head? = some mark
  /-- This character is reserved. -/
  reserved : ∃ code ∈ codes, code.1 = mark
  /-- No code is the beginning of another one. -/
  apart : ∀ code ∈ codes, ∀ other ∈ codes, code.2.toList <+: other.2.toList → code = other

/-! ### What the replacements make of a text -/

/-- A text is replaced part by part. -/
theorem replaceAll_append (codes : Codes) (s t : List Char) :
    codes.replaceAll (s ++ t) = codes.replaceAll s ++ codes.replaceAll t := by
  induction codes generalizing s t with
  | nil => rfl
  | cons code rest ih =>
    have hfirst := replaceChar_append code.1 code.2 s t
    simp only [replaceAll, List.foldl_cons] at ih ⊢
    rw [hfirst, ih]

/-- So it is replaced character by character. -/
theorem replaceAll_cons (codes : Codes) (c : Char) (s : List Char) :
    codes.replaceAll (c :: s) = codes.replaceAll [c] ++ codes.replaceAll s :=
  replaceAll_append codes [c] s

/-- An empty text stays empty. -/
@[simp] theorem replaceAll_nil (codes : Codes) : codes.replaceAll [] = [] := by
  induction codes with
  | nil => rfl
  | cons code rest ih => exact ih

/-- A text without reserved characters is left as it is. -/
theorem replaceAll_of_notMem (h : ∀ code ∈ codes, code.1 ∉ s) : codes.replaceAll s = s := by
  induction codes with
  | nil => rfl
  | cons code rest ih =>
    obtain ⟨hcode, hrest⟩ := List.forall_mem_cons.mp h
    rw [replaceAll, List.foldl_cons, replaceChar_of_not_mem hcode]
    exact ih hrest

/-- A reserved character becomes its code, which no later replacement changes. -/
theorem replaceAll_code
    (h : codes.Pairwise fun code later => later.1 ≠ code.1 ∧ later.1 ∉ code.2.toList)
    (hc : code ∈ codes) : codes.replaceAll [code.1] = code.2.toList := by
  induction codes with
  | nil => cases hc
  | cons first rest ih =>
    obtain ⟨hfirst, hrest⟩ := List.pairwise_cons.mp h
    rw [replaceAll, List.foldl_cons]
    rcases List.mem_cons.mp hc with rfl | hc
    · have hcode : replaceChar code.1 code.2 [code.1] = code.2.toList := by simp [replaceChar]
      rw [hcode]
      exact replaceAll_of_notMem fun later hl => (hfirst later hl).2
    · have hother : replaceChar first.1 first.2 [code.1] = [code.1] :=
        replaceChar_of_not_mem fun hm => (hfirst code hc).1 (List.mem_singleton.mp hm).symm
      rw [hother]
      exact ih hrest hc

/-- What is in no code and not in a text is not brought in. -/
theorem notMem_replaceAll_of_notMem (hcodes : ∀ code ∈ codes, c ∉ code.2.toList) (hs : c ∉ s) :
    c ∉ codes.replaceAll s := by
  induction codes generalizing s with
  | nil => exact hs
  | cons code rest ih =>
    obtain ⟨hcode, hrest⟩ := List.forall_mem_cons.mp hcodes
    exact ih hrest (notMem_replaceChar_of_notMem hcode hs)

/-- A reserved character that is in no code is gone. -/
theorem notMem_replaceAll (hcodes : ∀ code ∈ codes, c ∉ code.2.toList)
    (hreserved : ∃ code ∈ codes, code.1 = c) (s : List Char) : c ∉ codes.replaceAll s := by
  induction codes generalizing s with
  | nil => simp at hreserved
  | cons code rest ih =>
    obtain ⟨hcode, hrest⟩ := List.forall_mem_cons.mp hcodes
    rw [replaceAll, List.foldl_cons]
    by_cases hc : code.1 = c
    · exact notMem_replaceAll_of_notMem hrest (hc ▸ notMem_replaceChar (hc ▸ hcode) s)
    · exact ih hrest (by simpa [hc] using hreserved) _

/-! ### Decoding undoes the replacements -/

/-- Characters that are still to be passed over leave no trace. -/
theorem decodeFrom_append (codes : Codes) (skipped rest : List Char) :
    codes.decodeFrom skipped.length (skipped ++ rest) = codes.decode rest := by
  induction skipped with
  | nil => rfl
  | cons c skipped ih => exact ih

namespace Decodable

/-- A code is read as the character for which it stands, whatever follows it. -/
theorem decode_code (h : codes.Decodable mark) (hc : code ∈ codes) (rest : List Char) :
    codes.decode (code.2.toList ++ rest) = code.1 :: codes.decode rest := by
  obtain ⟨tail, htail⟩ := List.head?_eq_some_iff.mp (h.begins code hc)
  have hfind : codes.find? (fun other => other.2.toList.isPrefixOf (code.2.toList ++ rest)) =
      some code := by
    have hfound : (codes.find? fun other =>
        other.2.toList.isPrefixOf (code.2.toList ++ rest)).isSome = true :=
      List.find?_isSome.mpr ⟨code, hc, List.isPrefixOf_iff_prefix.mpr (List.prefix_append _ _)⟩
    obtain ⟨other, hother⟩ := Option.isSome_iff_exists.mp hfound
    have hmem := List.mem_of_find?_eq_some hother
    have hprefix := List.isPrefixOf_iff_prefix.mp (List.find?_eq_some_iff_append.mp hother).1
    -- both codes begin the same text, and so one of them begins the other
    rcases List.prefix_or_prefix_of_prefix hprefix (List.prefix_append code.2.toList rest) with
      hp | hp
    · rw [hother, h.apart other hmem code hc hp]
    · rw [hother, h.apart code hc other hmem hp]
  have hlength : code.2.length - 1 = tail.length := by
    rw [← String.length_toList, htail, List.length_cons, Nat.add_sub_cancel]
  rw [htail, List.cons_append] at hfind ⊢
  rw [decode, decodeFrom, hfind]
  dsimp only
  rw [hlength, decodeFrom_append]

/-- A character that begins no code is read as it is. -/
theorem decode_cons (h : codes.Decodable mark) (hc : c ≠ mark) (rest : List Char) :
    codes.decode (c :: rest) = c :: codes.decode rest := by
  have hfind : codes.find? (fun code => code.2.toList.isPrefixOf (c :: rest)) = none := by
    refine List.find?_eq_none.mpr fun code hcode => ?_
    obtain ⟨tail, htail⟩ := List.head?_eq_some_iff.mp (h.begins code hcode)
    rw [htail, List.isPrefixOf_iff_prefix, List.cons_prefix_cons]
    exact fun hp => hc hp.1.symm
  rw [decode, decodeFrom, hfind]
  rfl

/-- A character that is not reserved stays, and begins no code. -/
theorem replaceAll_plain (h : codes.Decodable mark) (hc : ¬∃ code ∈ codes, code.1 = c) :
    codes.replaceAll [c] = [c] ∧ c ≠ mark := by
  refine ⟨replaceAll_of_notMem fun code hcode hm => ?_, fun e => hc (e ▸ h.reserved)⟩
  exact hc ⟨code, hcode, List.mem_singleton.mp hm⟩

/-- Decoding undoes the replacements. -/
theorem decode_replaceAll (h : codes.Decodable mark) (s : List Char) :
    codes.decode (codes.replaceAll s) = s := by
  induction s with
  | nil =>
    rw [replaceAll_nil]
    rfl
  | cons c s ih =>
    rw [replaceAll_cons]
    by_cases hc : ∃ code ∈ codes, code.1 = c
    · obtain ⟨code, hcode, rfl⟩ := hc
      rw [replaceAll_code h.chained hcode, h.decode_code hcode, ih]
    · obtain ⟨hplain, hne⟩ := h.replaceAll_plain hc
      rw [hplain, List.singleton_append, h.decode_cons hne, ih]

/-- Where codes have the character with which they begin in no other place, it
begins a code wherever it stands in an escaped text. -/
theorem begins_code (h : codes.Decodable mark)
    (honce : ∀ code ∈ codes, mark ∉ code.2.toList.tail) (s : List Char)
    (hs : codes.replaceAll s = before ++ mark :: after) :
    ∃ code ∈ codes, code.2.toList <+: mark :: after := by
  induction s generalizing before with
  | nil =>
    rw [replaceAll_nil] at hs
    simp at hs
  | cons c s ih =>
    rw [replaceAll_cons] at hs
    by_cases hc : ∃ code ∈ codes, code.1 = c
    · obtain ⟨code, hcode, rfl⟩ := hc
      rw [replaceAll_code h.chained hcode] at hs
      rcases List.append_eq_append_iff.mp hs with ⟨k, -, hrest⟩ | ⟨k, htext, hk⟩
      · exact ih hrest
      · cases before with
        | nil =>
          -- the mark is the first character of the code
          refine ⟨code, hcode, ?_⟩
          rw [← List.nil_append (mark :: after), ← hs]
          exact List.prefix_append _ _
        | cons b before =>
          cases k with
          | nil => exact @ih [] hk.symm
          | cons m k =>
            obtain ⟨rfl, -⟩ := List.cons.inj hk
            refine absurd ?_ (honce code hcode)
            rw [htext]
            simp
    · obtain ⟨hplain, hne⟩ := h.replaceAll_plain hc
      rw [hplain] at hs
      cases before with
      | nil => exact absurd (List.cons.inj hs).1 hne
      | cons b before => exact ih (List.cons.inj hs).2

end Decodable

end Codes

/-! ### The two formats -/

/-- The codes of graph descriptions. -/
def dotCodes : Codes := [('\\', "\\\\"), ('"', "\\\""), ('\n', "\\n")]

/-- The codes of the messages of failed requests: the five entities. -/
def messageCodes : Codes :=
  [('&', "&amp;"), ('<', "&lt;"), ('>', "&gt;"), ('"', "&quot;"), ('\'', "&#039;")]

theorem dotCodes_decodable : dotCodes.Decodable '\\' :=
  ⟨by decide, by decide, by decide, by decide⟩

theorem messageCodes_decodable : messageCodes.Decodable '&' :=
  ⟨by decide, by decide, by decide, by decide⟩

/-- Labels and titles are escaped by the codes of graph descriptions. -/
theorem toList_escapeDot (s : String) : (escapeDot s).toList = dotCodes.replaceAll s.toList := by
  simp only [escapeDot, String.toList_ofList, dotChars, Codes.replaceAll, dotCodes,
    List.foldl_cons, List.foldl_nil]

/-- Messages are escaped by the five entities. -/
theorem toList_escapeMessage (s : String) :
    (escapeMessage s).toList = messageCodes.replaceAll s.toList := by
  simp only [escapeMessage, String.toList_ofList, markupChars, Codes.replaceAll, messageCodes,
    List.foldl_cons, List.foldl_nil]

/-! ### Quoted strings -/

/-- What a quoted string of a graph description contains, and what is behind its
closing quote: a backslash takes the character behind it with it. -/
def scanQuoted : List Char → Option (List Char × List Char)
  | [] => none
  | '"' :: rest => some ([], rest)
  | '\\' :: c :: rest => (scanQuoted rest).map fun read => ('\\' :: c :: read.1, read.2)
  | c :: rest => (scanQuoted rest).map fun read => (c :: read.1, read.2)

/-- The number of backslashes at the end of a text. -/
def backslashesAtEnd (s : List Char) : Nat := (s.rtakeWhile fun c => c == '\\').length

/-- A text that can stand between quotes in a graph description. -/
structure QuotedSafely (text : List Char) : Prop where
  /-- The text stays on its line. -/
  oneLine : '\n' ∉ text
  /-- An odd number of backslashes stands before every quote. -/
  guarded : ∀ before after, text = before ++ '"' :: after → Odd (backslashesAtEnd before)
  /-- The string ends at the quote behind the text, whatever comes then. -/
  closes : ∀ rest, scanQuoted (text ++ '"' :: rest) = some (text, rest)

/-- A text that is no markup. -/
structure PlainMarkup (text : List Char) : Prop where
  /-- The text has no angle brackets and no quotes. -/
  unreserved : ∀ c ∈ ['<', '>', '"', '\''], c ∉ text
  /-- Every ampersand begins one of the five entities. -/
  entities : ∀ before after, text = before ++ '&' :: after →
    ∃ code ∈ messageCodes, code.2.toList <+: '&' :: after

/-- What becomes of one character in a graph description. -/
inductive DotWritten : Char → List Char → Prop
  /-- A backslash is doubled. -/
  | backslash : DotWritten '\\' ['\\', '\\']
  /-- A quote gets a backslash. -/
  | quote : DotWritten '"' ['\\', '"']
  /-- A line feed becomes a backslash and a letter. -/
  | newline : DotWritten '\n' ['\\', 'n']
  /-- Any other character stays. -/
  | plain {c : Char} (backslash : c ≠ '\\') (quote : c ≠ '"') : DotWritten c [c]

theorem dotWritten_replaceAll (c : Char) : DotWritten c (dotCodes.replaceAll [c]) := by
  by_cases hb : c = '\\'
  · exact hb ▸ .backslash
  by_cases hq : c = '"'
  · exact hq ▸ .quote
  by_cases hn : c = '\n'
  · exact hn ▸ .newline
  have hplain : dotCodes.replaceAll [c] = [c] :=
    Codes.replaceAll_of_notMem (by simp [dotCodes, Ne.symm hb, Ne.symm hq, Ne.symm hn])
  rw [hplain]
  exact .plain hb hq

/-- A character that is neither a quote nor a backslash is part of the string. -/
theorem scanQuoted_cons {c : Char} (hb : c ≠ '\\') (hq : c ≠ '"') (rest : List Char) :
    scanQuoted (c :: rest) = (scanQuoted rest).map fun read => (c :: read.1, read.2) := by
  rw [scanQuoted]
  all_goals intros; contradiction

/-- An escaped text is read up to the quote behind it. -/
theorem scanQuoted_replaceAll (s rest : List Char) :
    scanQuoted (dotCodes.replaceAll s ++ '"' :: rest) = some (dotCodes.replaceAll s, rest) := by
  induction s with
  | nil => rfl
  | cons c s ih =>
    rw [Codes.replaceAll_cons]
    have hwritten := dotWritten_replaceAll c
    generalize dotCodes.replaceAll [c] = text at hwritten ⊢
    cases hwritten with
    | backslash | quote | newline => simp [scanQuoted, ih]
    | plain hb hq => simp [scanQuoted_cons hb hq, ih]

/-- The backslashes at the end are counted from left to right. -/
theorem backslashesAtEnd_eq_foldl (s : List Char) :
    backslashesAtEnd s = s.foldl (fun run c => if c = '\\' then run + 1 else 0) 0 := by
  induction s using List.reverseRecOn with
  | nil => rfl
  | append_singleton s c ih =>
    rw [List.foldl_append, ← ih, backslashesAtEnd, List.rtakeWhile_concat]
    by_cases hc : c = '\\'
    · simp [hc, backslashesAtEnd]
    · simp [hc]

/-- A quote behind two characters of which the first is none is the second one, or
comes later. -/
theorem cases_of_cons_cons_eq {x y : Char} {text before after : List Char} (hx : x ≠ '"')
    (h : x :: y :: text = before ++ '"' :: after) :
    (y = '"' ∧ before = [x]) ∨
      ∃ later, before = x :: y :: later ∧ text = later ++ '"' :: after := by
  match before with
  | [] => exact absurd (List.cons.inj h).1 hx
  | [z] =>
    simp only [List.cons_append, List.nil_append, List.cons.injEq] at h
    exact .inl ⟨h.2.1, by rw [h.1]⟩
  | z :: z' :: later =>
    simp only [List.cons_append, List.cons.injEq] at h
    exact .inr ⟨later, by rw [h.1, h.2.1], h.2.2⟩

/-- In an escaped text the backslashes before a quote are odd in number, also if an
even number of them stands before the text. -/
theorem odd_backslashes {s before after : List Char} {run : Nat} (hrun : Even run)
    (hs : dotCodes.replaceAll s = before ++ '"' :: after) :
    Odd (before.foldl (fun run c => if c = '\\' then run + 1 else 0) run) := by
  induction s generalizing before run with
  | nil =>
    rw [Codes.replaceAll_nil] at hs
    simp at hs
  | cons c s ih =>
    rw [Codes.replaceAll_cons] at hs
    have hwritten := dotWritten_replaceAll c
    generalize dotCodes.replaceAll [c] = text at hwritten hs
    cases hwritten with
    | backslash =>
      obtain ⟨hquote, -⟩ | ⟨later, rfl, hlater⟩ := cases_of_cons_cons_eq (by decide) hs
      · exact absurd hquote (by decide)
      · have heven : Even (run + 1 + 1) := by simpa [Nat.even_add_one] using hrun
        exact (ih heven hlater :)
    | quote =>
      obtain ⟨-, rfl⟩ | ⟨later, rfl, hlater⟩ := cases_of_cons_cons_eq (by decide) hs
      · exact hrun.add_one
      · exact (ih Even.zero hlater :)
    | newline =>
      obtain ⟨hquote, -⟩ | ⟨later, rfl, hlater⟩ := cases_of_cons_cons_eq (by decide) hs
      · exact absurd hquote (by decide)
      · exact (ih Even.zero hlater :)
    | plain hb hq =>
      match before with
      | [] => exact absurd (List.cons.inj hs).1 hq
      | _ :: before =>
        obtain ⟨rfl, hlater⟩ := List.cons.inj hs
        rw [List.foldl_cons, if_neg hb]
        exact ih Even.zero hlater

/-- A label or title stays within its quotes. -/
theorem quotedSafely_escapeDot (s : String) : QuotedSafely (escapeDot s).toList where
  oneLine := newline_notMem_escapeDot s
  guarded := by
    intro before after h
    rw [toList_escapeDot] at h
    rw [backslashesAtEnd_eq_foldl]
    exact odd_backslashes Even.zero h
  closes := by
    intro rest
    rw [toList_escapeDot]
    exact scanQuoted_replaceAll s.toList rest

/-- A message brings in no markup. -/
theorem plainMarkup_escapeMessage (s : String) : PlainMarkup (escapeMessage s).toList where
  unreserved := by
    intro c hc
    rw [toList_escapeMessage]
    simp only [List.mem_cons, List.not_mem_nil, or_false] at hc
    -- each of the four characters is reserved, and is in no entity
    rcases hc with rfl | rfl | rfl | rfl <;>
      exact Codes.notMem_replaceAll (by decide) (by decide) s.toList
  entities := by
    intro before after h
    rw [toList_escapeMessage] at h
    exact messageCodes_decodable.begins_code (by decide) s.toList h

/-- Escaped texts can be decoded from left to right, both those of graph
descriptions and those of messages, so that different texts are written in
different ways. A label or title has no line feed in it and no quote that ends its
string early, and a message has neither angle brackets nor quotes, and no ampersand
but those of the five entities. -/
theorem escapes_decoded :
    (∀ s : String, dotCodes.decode (escapeDot s).toList = s.toList) ∧
      Function.Injective escapeDot ∧
      (∀ s : String, QuotedSafely (escapeDot s).toList) ∧
      (∀ s : String, messageCodes.decode (escapeMessage s).toList = s.toList) ∧
      Function.Injective escapeMessage ∧
      ∀ s : String, PlainMarkup (escapeMessage s).toList := by
  have hdot : ∀ s : String, dotCodes.decode (escapeDot s).toList = s.toList := by
    intro s
    rw [toList_escapeDot, dotCodes_decodable.decode_replaceAll]
  have hmessage : ∀ s : String, messageCodes.decode (escapeMessage s).toList = s.toList := by
    intro s
    rw [toList_escapeMessage, messageCodes_decodable.decode_replaceAll]
  refine ⟨hdot, fun s t h => ?_, quotedSafely_escapeDot, hmessage, fun s t h => ?_,
    plainMarkup_escapeMessage⟩
  · rw [← String.toList_inj, ← hdot s, h, hdot t]
  · rw [← String.toList_inj, ← hmessage s, h, hmessage t]

/-- A backslash before a letter is not read back as a line feed, nor an entity that the
text has itself as the character for which it stands. -/
example : dotCodes.decode (escapeDot "\\n").toList = ['\\', 'n'] ∧
    messageCodes.decode (escapeMessage "&lt;").toList = ['&', 'l', 't', ';'] := by
  decide +kernel

end PredictiveParsing.Text
