/-
  File:      FormulaGraph/Token/Basic.lean
  Subject:   The tokens of a formula.

  A token has a kind, the text it was read from and the byte offset where it begins. Its span is
  computed from these, so a token's span always covers its text.
-/
import FormulaGraph.Text.Span

namespace FormulaGraph

/-- What a token is. -/
inductive TokenKind where
  | integer (value : Nat)
  | float (value : Float)
  | word (name : String)
  | plus
  | minus
  | star
  | starStar
  | caret
  | slash
  | percent
  | openParen
  | closeParen
  | comma
  | blank
  | bad
  | stop
  deriving DecidableEq, Repr

namespace TokenKind

/-- The kind as error messages and listings name it. -/
def name : TokenKind → String
  | integer _ => "integer"
  | float _ => "float"
  | word _ => "word"
  | plus => "+"
  | minus => "-"
  | star => "*"
  | starStar => "**"
  | caret => "^"
  | slash => "/"
  | percent => "%"
  | openParen => "("
  | closeParen => ")"
  | comma => ","
  | blank => "whitespace"
  | bad => "bad-token"
  | stop => "end-of-expression"

end TokenKind

/-- A token of a formula. -/
structure Token where
  kind : TokenKind
  text : List Char
  /-- The byte offset of the first character. -/
  start : Nat
  deriving DecidableEq, Repr

namespace Token

/-- The bytes that the token covers. -/
def span (t : Token) : Span := ⟨t.start, t.start + Text.byteSize t.text⟩

/-- The empty token behind the last one. -/
def stopAt (offset : Nat) : Token := ⟨.stop, [], offset⟩

end Token

end FormulaGraph
