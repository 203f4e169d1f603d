import ProtoSchema.Diagnostic

/-!
The words of a schema text.
-/

namespace ProtoSchema

inductive TokenKind where
  /-- Current before the first token has been read. -/
  | start
  /-- A letter or underscore, then letters, digits and underscores. -/
  | identifier
  /-- A decimal, hexadecimal or octal number. -/
  | integer
  /-- A number with a fraction or an exponent. -/
  | float
  /-- A quoted string. Its text keeps the quotes and the escapes. -/
  | string
  /-- A single punctuation character. -/
  | symbol
  | endOfInput
deriving DecidableEq, Repr

/-- A token with the place of its first character. -/
structure Token where
  kind : TokenKind
  text : String
  position : Position
deriving DecidableEq, Repr

namespace Token

def start : Token :=
  ⟨.start, "", ⟨0, 0⟩⟩

def isSymbol (t : Token) (symbol : String) : Bool :=
  t.kind = .symbol && t.text = symbol

def isWord (t : Token) (word : String) : Bool :=
  t.kind = .identifier && t.text = word

/-- The place just past the last character. -/
def finish (t : Token) : Position :=
  ⟨t.position.line, t.position.column + t.text.length⟩

/-- The token as a message names it. -/
def describe (t : Token) : String :=
  match t.kind with
  | .start => "start of input"
  | .endOfInput => "end of input"
  | _ => "\"" ++ t.text ++ "\""

end Token

/-- A token together with the remarks made while reading up to its end. -/
structure Lexeme where
  token : Token
  remarks : List Diagnostic
deriving DecidableEq, Repr

end ProtoSchema
