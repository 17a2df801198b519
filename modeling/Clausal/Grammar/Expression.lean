import Clausal.Grammar.Parser
import Clausal.Token.Literal
import Clausal.Tree

/-!
The grammar of expressions. Six levels of binary operators lie over the unary ones, those over
calls, and calls over literals, names, matches and parentheses. Every reader takes as a parameter
the reader of the expressions nested in it, so the nesting of expressions is tied in one place.
-/

namespace Clausal

def Token.binaryOp? (t : Token) : Option BinaryOp :=
  match t.kind with
  | .logicOp => if t.text = "||" then some .or else if t.text = "&&" then some .and else none
  | .compareOp =>
    if t.text = "==" then some .eq
    else if t.text = "<" then some .lt
    else if t.text = "<=" then some .le
    else if t.text = ">" then some .gt
    else if t.text = ">=" then some .ge
    else none
  | .arithOp =>
    if t.text = "+" then some .add
    else if t.text = "-" then some .sub
    else if t.text = "*" then some .mul
    else if t.text = "/" then some .div
    else none
  | _ => none

def Token.unaryOp? (t : Token) : Option UnaryOp :=
  if t.is .logicOp "!" then some .not else if t.is .arithOp "-" then some .neg else none

def Cursor.operator? (level : Nat) (c : Cursor) : Option BinaryOp :=
  c.current.bind fun t => t.binaryOp?.filter fun op => op.precedence == level

def Cursor.unaryOperator? (c : Cursor) : Option UnaryOp := c.current.bind (·.unaryOp?)

/-- An operation on two operands covers both. -/
def Expr.joined (op : BinaryOp) (left right : Expr) : Expr :=
  .binary op left right (left.span.merge right.span)

namespace Parser

def ident : Parser Ident := do
  let name ← expect .identifier
  return ⟨name.text, name.span⟩

/-- Parameters in parentheses; there may be none. -/
def parameters (rounds : Nat) : Parser (List Ident) :=
  within .parameterList do
    let _ ← expect .leftParen
    let params ← commaSeparatedOrNone ident rounds
    let _ ← expect .rightParen
    return params

/-- A clause. After `when` a lone underscore makes the clause one that is always taken. -/
def clause (expr : Parser Expr) : Parser Clause := do
  let start ← look Cursor.currentSpan
  if ← checkText .keyword "when" then
    let _ ← consume
    if ← checkText .identifier "_" then
      let _ ← consume
      catchAllFrom start
    else
      let condition ← expr
      let _ ← expect .arrow
      let body ← expr
      let stop ← expect .semicolon
      return .guarded condition body (start.merge stop.span)
  else if ← checkText .keyword "otherwise" then
    let _ ← consume
    catchAllFrom start
  else
    match ← look Cursor.current with
    | some t => fail ⟨.expectedClause t.kind t.text, t.span, none⟩
    | none => fail ⟨.unexpectedEnd .closingBrace, start, none⟩
where
  /-- The part of a clause after the words that make it one that is always taken. -/
  catchAllFrom (start : Span) : Parser Clause := do
    let _ ← expect .arrow
    let body ← expr
    let stop ← expect .semicolon
    return .catchAll body (start.merge stop.span)

/-- Clauses up to the closing brace, with comments between them. -/
def clauses (expr : Parser Expr) : Nat → Parser (List Clause)
  | 0 => starve
  | rounds + 1 => do
    if ← check .rightBrace then return []
    else if ← eat .comment then clauses expr rounds
    else
      let first ← within .matchClause (clause expr)
      let others ← clauses expr rounds
      return first :: others

/-- The parameters of a match: any number in parentheses, or one name alone. -/
def binders (rounds : Nat) : Parser (List Ident) := do
  if ← check .leftParen then parameters rounds
  else
    let param ← ident
    return [param]

def matchExpression (expr : Parser Expr) (rounds : Nat) : Parser Expr :=
  within .matchExpression do
    let start ← expect .keyword
    let params ← binders rounds
    let _ ← expect .leftBrace
    let cases ← clauses expr rounds
    let stop ← expect .rightBrace
    return .matching params cases (start.span.merge stop.span)

/-- One expression in parentheses is that expression; two or more are a tuple. -/
def parenthesized (expr : Parser Expr) (rounds : Nat) : Parser Expr :=
  within .parenthesized do
    let start ← expect .leftParen
    let first ← expr
    if ← eat .comma then
      let others ← commaSeparated expr rounds
      let stop ← expect .rightParen
      return .tuple (first :: others) (start.span.merge stop.span)
    else
      let _ ← expect .rightParen
      return first

def atom? (t : Token) : Option (Except ParseError Expr) :=
  match t.kind with
  | .number =>
    match Literal.numberValue? t.text with
    | some value => some (.ok (.number value t.text t.span))
    | none => some (.error ⟨.invalidNumber t.text, t.span, none⟩)
  | .string => some (.ok (.string (Literal.stringValue t.text) t.text t.span))
  | .boolean => some (.ok (.boolean (t.text == "true") t.text t.span))
  | .identifier => some (.ok (.ident t.text t.span))
  | _ => none

def primary (expr : Parser Expr) (rounds : Nat) : Parser Expr := do
  match ← look Cursor.current with
  | none =>
    let place ← look Cursor.currentSpan
    fail ⟨.unexpectedEnd .expression, place, none⟩
  | some t =>
    if t.is .keyword "match" then matchExpression expr rounds
    else if t.kind = .leftParen then parenthesized expr rounds
    else
      match atom? t with
      | some (.ok e) =>
        let _ ← consume
        return e
      | some (.error e) => fail e
      | none => fail ⟨.unexpectedToken t.kind t.text, t.span, none⟩

def arguments (expr : Parser Expr) (rounds : Nat) : Parser (List Expr) :=
  within .callArguments do
    let _ ← expect .leftParen
    let args ← commaSeparatedOrNone expr rounds
    let _ ← expect .rightParen
    return args

/-- The calls of an expression that was read; calls follow one another. -/
def calls (expr : Parser Expr) : Nat → Expr → Parser Expr
  | 0, _ => starve
  | rounds + 1, callee => do
    if ← check .leftParen then
      let args ← arguments expr rounds
      let stop ← look Cursor.previous
      calls expr rounds (.call callee args (callee.span.merge stop))
    else
      return callee

/-- Operators in front of a call; the last one binds first. -/
def unary (expr : Parser Expr) : Nat → Parser Expr
  | 0 => starve
  | rounds + 1 => do
    match ← look Cursor.unaryOperator? with
    | some op =>
      let start ← consume
      let operand ← unary expr rounds
      return .unary op operand (start.span.merge operand.span)
    | none =>
      let callee ← primary expr rounds
      calls expr rounds callee

/-- Operators of one level and their right operands, after a left operand that was read. -/
def chain (operand : Parser Expr) (level : Nat) : Nat → Expr → Parser Expr
  | 0, _ => starve
  | rounds + 1, left => do
    match ← look (Cursor.operator? level) with
    | some op =>
      let _ ← consume
      let right ← operand
      chain operand level rounds (.joined op left right)
    | none => return left

/-- Operations up to a level; the operands of a level are what the level below reads. -/
def binary (expr : Parser Expr) (rounds : Nat) : Nat → Parser Expr
  | 0 => unary expr rounds
  | level + 1 => do
    let left ← binary expr rounds level
    chain (binary expr rounds level) (level + 1) rounds left

/-- An expression with as many levels of nesting as there are rounds. -/
def expression : Nat → Parser Expr
  | 0 => starve
  | rounds + 1 => binary (expression rounds) rounds BinaryOp.loosest

end Parser

end Clausal
