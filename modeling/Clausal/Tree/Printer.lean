import Clausal.Token.Lexeme
import Clausal.Tree

/-!
Programs written back as source text. Printing goes through pieces, which are lexemes and the
spaces between them, so that the printed text is known token by token. Parentheses stand only
where the tree would be read differently without them: around an operand that binds no tighter
than its place allows, and around a callee that is an operation. A function is always printed with
its match.
-/

namespace Clausal

inductive Piece
  | lexeme (kind : Token.Kind) (text : String)
  | space
  | newline

namespace Piece

def text : Piece → String
  | lexeme _ s => s
  | space => " "
  | newline => "\n"

def render (pieces : List Piece) : String := pieces.foldl (fun s p => s ++ p.text) ""

def keyword (s : String) : Piece := lexeme .keyword s
def leftParen : Piece := lexeme .leftParen "("
def rightParen : Piece := lexeme .rightParen ")"
def leftBrace : Piece := lexeme .leftBrace "\x7b"
def rightBrace : Piece := lexeme .rightBrace "\x7d"
def comma : Piece := lexeme .comma ","
def semicolon : Piece := lexeme .semicolon ";"
def arrow : Piece := lexeme .arrow "->"
def assign : Piece := lexeme .assign "="
def identifier (name : String) : Piece := lexeme .identifier name

/-- A type, which is the name of one or any other word. -/
def typeWord (name : String) : Piece := lexeme (Lexeme.wordKind name.toList) name

/-- Writes a body, in parentheses if they are needed. -/
def enclosed (needed : Bool) (body : List Piece → List Piece) (rest : List Piece) : List Piece :=
  if needed then leftParen :: body (rightParen :: rest) else body rest

def names : List String → List Piece → List Piece
  | [], rest => rest
  | [name], rest => identifier name :: rest
  | name :: more, rest => identifier name :: comma :: space :: names more rest

end Piece

def BinaryOp.tokenKind : BinaryOp → Token.Kind
  | add | sub | mul | div => .arithOp
  | eq | lt | le | gt | ge => .compareOp
  | and | or => .logicOp

def UnaryOp.tokenKind : UnaryOp → Token.Kind
  | neg => .arithOp
  | not => .logicOp

def Expr.level? : Expr → Option Nat
  | .binary op _ _ _ => some op.precedence
  | _ => none

/-- Whether the expression is a binary operation of a level that passes the test. -/
def Expr.isBinary (test : Nat → Bool) (e : Expr) : Bool := e.level?.any test

/-- Whether the expression has to be enclosed to be called. -/
def Expr.isOperation : Expr → Bool
  | .binary .. | .unary .. => true
  | _ => false

/-- The parameters of a match: one name stands alone, any other number in parentheses. -/
def Ident.pieces (params : List Ident) (rest : List Piece) : List Piece :=
  match params with
  | [p] => .identifier p.name :: rest
  | _ => .leftParen :: Piece.names (params.map (·.name)) (.rightParen :: rest)

mutual

/-- The pieces of an expression, followed by the given ones. -/
def Expr.pieces : Expr → List Piece → List Piece
  | .number _ raw _, rest => .lexeme .number raw :: rest
  | .string _ raw _, rest => .lexeme .string raw :: rest
  | .boolean _ raw _, rest => .lexeme .boolean raw :: rest
  | .ident name _, rest => .identifier name :: rest
  | .tuple es _, rest => .leftParen :: Expr.piecesOfList es (.rightParen :: rest)
  | .binary op a b _, rest =>
    let right := Piece.enclosed (b.isBinary (op.precedence ≤ ·)) (fun k => b.pieces k) rest
    Piece.enclosed (a.isBinary (op.precedence < ·)) (fun k => a.pieces k)
      (.space :: .lexeme op.tokenKind op.symbol :: .space :: right)
  | .unary op a _, rest =>
    .lexeme op.tokenKind op.symbol ::
      Piece.enclosed (a.isBinary fun _ => true) (fun k => a.pieces k) rest
  | .call f args _, rest =>
    Piece.enclosed f.isOperation (fun k => f.pieces k)
      (.leftParen :: Expr.piecesOfList args (.rightParen :: rest))
  | .matching params clauses _, rest =>
    .keyword "match" :: .space :: Ident.pieces params
      (.space :: .leftBrace :: Clause.piecesOfList clauses (.space :: .rightBrace :: rest))

def Expr.piecesOfList : List Expr → List Piece → List Piece
  | [], rest => rest
  | [e], rest => e.pieces rest
  | e :: es, rest => e.pieces (.comma :: .space :: Expr.piecesOfList es rest)

def Clause.pieces : Clause → List Piece → List Piece
  | .guarded condition body _, rest =>
    .keyword "when" :: .space :: condition.pieces
      (.space :: .arrow :: .space :: body.pieces (.semicolon :: rest))
  | .catchAll body _, rest =>
    .keyword "otherwise" :: .space :: .arrow :: .space :: body.pieces (.semicolon :: rest)

def Clause.piecesOfList : List Clause → List Piece → List Piece
  | [], rest => rest
  | c :: cs, rest => .space :: c.pieces (Clause.piecesOfList cs rest)

end

def Expr.print (e : Expr) : String := Piece.render (e.pieces [])

def Match.print (m : Match) : String := m.toExpr.print

/-- A type list: each type of a parameter is followed by a comma. -/
def FunctionDecl.typePieces (d : FunctionDecl) (rest : List Piece) : List Piece :=
  .lexeme .compareOp "<" ::
    (d.paramTypes.foldr (fun t k => .typeWord t :: .comma :: .space :: k)
      (.typeWord d.returnType :: .lexeme .compareOp ">" :: rest))

def Statement.pieces : Statement → List Piece → List Piece
  | .define typeName name init _, rest =>
    .lexeme .typeName typeName :: .space :: .identifier name :: .space :: .assign :: .space ::
      init.pieces (.semicolon :: rest)
  | .function d _, rest =>
    d.typePieces (.space :: .identifier d.name :: .space :: .assign :: .space ::
      d.body.toExpr.pieces (.semicolon :: rest))
  | .expression e _, rest => e.pieces (.semicolon :: rest)
  | .comment text _, rest => .lexeme .comment text :: rest

def Program.pieces (p : Program) : List Piece :=
  p.statements.foldr (fun s rest => s.pieces (.newline :: rest)) []

def Program.print (p : Program) : String := Piece.render p.pieces

end Clausal
