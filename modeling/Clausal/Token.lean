import Clausal.Span
import Clausal.Text.Quoted

/-!
Tokens. A kind is a coarse class: the operators of one family share a kind, as do the keywords,
and are told apart by the text of the token.
-/

namespace Clausal

inductive Token.Kind
  | comment
  | string
  | keyword
  | typeName
  | boolean
  | number
  | identifier
  | arrow
  | compareOp
  | logicOp
  | arithOp
  | assign
  | leftParen
  | rightParen
  | leftBracket
  | rightBracket
  | leftBrace
  | rightBrace
  | comma
  | semicolon
  /-- A run of blanks; no token handed out has this kind. -/
  | blank
  deriving DecidableEq, Inhabited

namespace Token.Kind

def name : Kind → String
  | comment => "COMMENT"
  | string => "STRING_LITERAL"
  | keyword => "KEYWORD"
  | typeName => "TYPE_NAME"
  | boolean => "BOOLEAN_LITERAL"
  | number => "NUMBER_LITERAL"
  | identifier => "IDENTIFIER"
  | arrow => "ARROW"
  | compareOp => "COMPARE_OP"
  | logicOp => "LOGIC_OP"
  | arithOp => "ARITH_OP"
  | assign => "ASSIGN"
  | leftParen => "LPAREN"
  | rightParen => "RPAREN"
  | leftBracket => "LBRACKET"
  | rightBracket => "RBRACKET"
  | leftBrace => "LBRACE"
  | rightBrace => "RBRACE"
  | comma => "COMMA"
  | semicolon => "SEMICOLON"
  | blank => "WHITESPACE"

end Token.Kind

structure Token where
  kind : Token.Kind
  text : String
  span : Span
  deriving DecidableEq, Inhabited

namespace Token

/-- Whether the token has this kind and exactly this spelling. -/
def is (t : Token) (kind : Kind) (text : String) : Bool := t.kind == kind && t.text == text

def describe (t : Token) : String :=
  t.kind.name ++ " " ++ Text.quoted t.text ++ " @ " ++ t.span.text

end Token

end Clausal
