import Clausal.Token.Stream

/-!
Why a sequence of tokens is not a program. A failure has a cause, a place, and the innermost
construct that was being read.
-/

namespace Clausal

/-- What would have had to follow where the input ends. -/
inductive ParseError.Expectation
  | token
  | expression
  | closingBrace
  | kind (kind : Token.Kind)
  | spelling (text : String)
  deriving DecidableEq

def ParseError.Expectation.text : ParseError.Expectation → String
  | token => "a token"
  | expression => "an expression"
  | closingBrace => "'\x7d'"
  | kind k => "token type " ++ k.name
  | spelling s => "'" ++ s ++ "'"

inductive ParseError.Cause
  | lexical (error : LexError)
  /-- Another kind was needed, or another spelling when one is given. -/
  | expectedToken (expected : Token.Kind) (spelling : Option String)
      (found : Token.Kind) (foundText : String)
  | unexpectedToken (found : Token.Kind) (foundText : String)
  | unexpectedEnd (expected : ParseError.Expectation)
  | missingReturnType
  | expectedClause (found : Token.Kind) (foundText : String)
  | invalidNumber (raw : String)
  deriving DecidableEq

inductive ParseError.Context
  | variableDeclaration
  | functionDeclaration
  | typeList
  | parameterList
  | expressionStatement
  | matchExpression
  | matchClause
  | callArguments
  | parenthesized
  deriving DecidableEq

def ParseError.Context.description : ParseError.Context → String
  | variableDeclaration => "a variable declaration"
  | functionDeclaration => "a function declaration"
  | typeList => "a function type list"
  | parameterList => "a parameter list"
  | expressionStatement => "an expression statement"
  | matchExpression => "a match expression"
  | matchClause => "a match clause"
  | callArguments => "call arguments"
  | parenthesized => "a parenthesized expression"

structure ParseError where
  cause : ParseError.Cause
  span : Span
  context : Option ParseError.Context
  deriving DecidableEq

namespace ParseError

def ofLexError (e : LexError) : ParseError := ⟨.lexical e, e.span, none⟩

/-- Records the construct, unless one inside it is recorded. -/
def within (context : Context) (e : ParseError) : ParseError :=
  { e with context := e.context.or (some context) }

def code (e : ParseError) : Report.Code :=
  match e.cause with
  | .lexical error => error.code
  | .expectedToken .. => .expectedToken
  | .unexpectedToken .. => .unexpectedToken
  | .unexpectedEnd _ => .unexpectedEnd
  | .missingReturnType => .missingReturnType
  | .expectedClause .. => .expectedClause
  | .invalidNumber _ => .invalidNumber

def message (e : ParseError) : String :=
  match e.cause with
  | .lexical error => error.message
  | .expectedToken expected none found _ =>
    "Expected token type " ++ expected.name ++ ", got " ++ found.name
  | .expectedToken _ (some spelling) found foundText =>
    "Expected '" ++ spelling ++ "', got " ++ found.name ++ " " ++ Text.quoted foundText
  | .unexpectedToken found foundText => "Unexpected token: " ++ found.name ++ " " ++ foundText
  | .unexpectedEnd expected => "Expected " ++ expected.text ++ ", got end of input"
  | .missingReturnType => "Function definition must specify return type"
  | .expectedClause found foundText =>
    "Expected 'when' or 'otherwise', got " ++ found.name ++ " " ++ foundText
  | .invalidNumber raw => "Number literal " ++ raw ++ " is out of range"

def label (e : ParseError) : String :=
  match e.cause with
  | .lexical _ => "here"
  | .expectedToken _ (some spelling) _ _ => "expected '" ++ spelling ++ "'"
  | .expectedToken expected none _ _ => "expected " ++ expected.name
  | .unexpectedToken .. => "expected an expression"
  | .unexpectedEnd expected => "expected " ++ expected.text
  | .missingReturnType => "type list is empty"
  | .expectedClause .. => "expected `when` or `otherwise`"
  | .invalidNumber _ => "out of range"

def diagnostic (e : ParseError) : Report.Diagnostic :=
  let d : Report.Diagnostic :=
    match e.cause with
    | .lexical error => error.diagnostic
    | _ => ⟨e.code, e.message, some ⟨e.span, e.label⟩, [], []⟩
  match e.context with
  | some context => d.withNote ("while parsing " ++ context.description)
  | none => d

end ParseError

end Clausal
