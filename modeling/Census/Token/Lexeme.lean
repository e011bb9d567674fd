import Census.Token.Tokenizer

namespace Census

-- A token that means something to the grammar, with the documentation that belongs to it: the
-- last doc comment since the significant token before it.
structure Lexeme where
  token : Token
  doc : Option String
deriving DecidableEq, Repr

namespace Lexeme

-- `doc` is the documentation that waits for the next significant token.
def ofTokensFrom (doc : Option String) : List Token → List Lexeme
  | [] => []
  | t :: rest =>
      if t.kind.isSignificant then ⟨t, doc⟩ :: ofTokensFrom none rest
      else if t.kind = .docComment then ofTokensFrom (some t.text) rest
      else ofTokensFrom doc rest

def ofTokens (tokens : List Token) : List Lexeme := ofTokensFrom none tokens

end Lexeme

end Census
