import PredictiveParsing.Token

/-!
# Token streams

A stream is a list of tokens of which there is at least one. Its last token
marks the end; whoever reads beyond it meets the last token again.
-/

namespace PredictiveParsing

/-- A sequence of tokens with an end marker. -/
structure TokenStream where
  /-- The tokens, the end marker included. -/
  tokens : Array Token
  /-- The end marker is there. -/
  nonempty : 0 < tokens.size

namespace TokenStream

/-- The stream of a list of tokens, if there are any. -/
def ofList? (tokens : List Token) : Option TokenStream :=
  if h : 0 < tokens.toArray.size then some ⟨tokens.toArray, h⟩ else none

/-- The number of tokens. -/
def size (s : TokenStream) : Nat := s.tokens.size

/-- The token at a place; the last one beyond the end. -/
def token (s : TokenStream) (i : Nat) : Token :=
  have h : min i (s.tokens.size - 1) < s.tokens.size := by have := s.nonempty; omega
  s.tokens[min i (s.tokens.size - 1)]

/-- The last token. -/
def last (s : TokenStream) : Token := s.token (s.size - 1)

/-- The unit that marks the end of the stream. -/
def endUnit (s : TokenStream) : LexicalUnit := s.last.unit

/-- Every place from the last one on shows the last token. -/
theorem token_eq_last {s : TokenStream} {i : Nat} (h : s.size - 1 ≤ i) : s.token i = s.last := by
  have hs : s.size = s.tokens.size := rfl
  simp only [last, token]
  congr 1
  omega

end TokenStream

end PredictiveParsing
