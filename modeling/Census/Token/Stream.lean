import Census.Token.Lexeme

namespace Census

-- Significant tokens, read from the source only as far as somebody has looked. A lexical error
-- is kept until the tokens in front of it have been taken.
structure Stream where
  lexer : Lexer
  buffer : List Lexeme := []
  doc : Option String := none
  error : Option LexError := none
  exhausted : Bool := false
  last : Position := .first

namespace Stream

def ofSource (source : String) : Stream := { lexer := .ofSource source }

-- Reads on until one more significant token is buffered or the source ends.
def pull (stream : Stream) : Stream :=
  if stream.exhausted then stream
  else
    match h : stream.lexer.next? with
    | none => { stream with exhausted := true }
    | some (.error e) => { stream with error := some e, exhausted := true }
    | some (.ok (token, next)) =>
        have := Lexer.next?_shorter h
        if token.kind.isSignificant then
          { stream with
            lexer := next
            buffer := stream.buffer ++ [⟨token, stream.doc⟩]
            doc := none }
        else if token.kind = .docComment then
          pull { stream with lexer := next, doc := some token.text }
        else pull { stream with lexer := next }
termination_by stream.lexer.rest.length

-- Buffers tokens until number `n` is there or none are left.
def fill (stream : Stream) (n : Nat) : Stream :=
  (List.range (n + 1 - stream.buffer.length)).foldl (fun s _ => s.pull) stream

def peek (stream : Stream) (n : Nat) : Option Lexeme × Stream :=
  let stream := stream.fill n
  (stream.buffer[n]?, stream)

def bump (stream : Stream) : Option Lexeme × Stream :=
  let stream := stream.fill 0
  match stream.buffer with
  | [] => (none, stream)
  | lexeme :: rest =>
      (some lexeme, { stream with buffer := rest, last := lexeme.token.span.stop })

end Stream

end Census
