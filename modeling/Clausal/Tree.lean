import Clausal.Span
import Clausal.Tree.Operator

/-!
Programs as trees. Every node carries the span it was read from. A match is a function: its
parameters, and clauses that are tried from the top, each guarded by a condition or taken in any
case. Declared types are recorded and have no effect.
-/

namespace Clausal

/-- A name where it is bound. -/
structure Ident where
  name : String
  span : Span
  deriving DecidableEq

mutual

inductive Expr
  | number (value : Float) (raw : String) (span : Span)
  | string (value : String) (raw : String) (span : Span)
  | boolean (value : Bool) (raw : String) (span : Span)
  | tuple (elements : List Expr) (span : Span)
  | ident (name : String) (span : Span)
  | binary (op : BinaryOp) (left right : Expr) (span : Span)
  | unary (op : UnaryOp) (operand : Expr) (span : Span)
  | call (callee : Expr) (args : List Expr) (span : Span)
  | matching (params : List Ident) (clauses : List Clause) (span : Span)

inductive Clause
  | guarded (condition body : Expr) (span : Span)
  | catchAll (body : Expr) (span : Span)

end

/-- A match on its own, as it is the body of a function. -/
structure Match where
  params : List Ident
  clauses : List Clause
  span : Span

structure FunctionDecl where
  name : String
  paramTypes : List String
  returnType : String
  params : List String
  body : Match

inductive Statement
  | define (typeName name : String) (init : Expr) (span : Span)
  | function (decl : FunctionDecl) (span : Span)
  | expression (e : Expr) (span : Span)
  | comment (text : String) (span : Span)

structure Program where
  statements : List Statement

def Expr.span : Expr → Span
  | .number _ _ s | .string _ _ s | .boolean _ _ s | .tuple _ s | .ident _ s
  | .binary _ _ _ s | .unary _ _ s | .call _ _ s | .matching _ _ s => s

namespace Clause

def body : Clause → Expr
  | guarded _ b _ | catchAll b _ => b

def span : Clause → Span
  | guarded _ _ s | catchAll _ s => s

end Clause

namespace Match

def toExpr (m : Match) : Expr := .matching m.params m.clauses m.span

def paramNames (m : Match) : List String := m.params.map (·.name)

/-- The match with one clause that is always taken; it stands where its body stands. -/
def always (params : List Ident) (body : Expr) : Match :=
  ⟨params, [.catchAll body body.span], body.span⟩

/-- The match that an expression is, or the match without parameters that gives its value. -/
def ofExpr : Expr → Match
  | .matching params clauses span => ⟨params, clauses, span⟩
  | e => always [] e

end Match

def Statement.span : Statement → Span
  | .define _ _ _ s | .function _ s | .expression _ s | .comment _ s => s

end Clausal
