import Clausal.Decimal.Notation
import Clausal.Text.Quoted
import Clausal.Tree

/-!
Trees laid out in full, one field a line. An outline is a record of named fields, a variant with
one content, a list or a line of text; what is inside another outline is indented by four blanks
and followed by a comma. Trees are shown with every field, spans included.
-/

namespace Clausal

inductive Outline
  | line (text : String)
  | record (name : String) (fields : List (String × Outline))
  | variant (name : String) (content : Outline)
  | list (items : List Outline)

namespace Outline

def margin (depth : Nat) : String := String.ofList (List.replicate (4 * depth) ' ')

mutual

/-- Appends an outline whose first line goes on the current one, at a depth of indentation. -/
def write (depth : Nat) : Outline → String → String
  | .line text, out => out ++ text
  | .record name fields, out =>
    writeFields (depth + 1) fields (out ++ name ++ " \x7b\n") ++ margin depth ++ "\x7d"
  | .variant name content, out =>
    content.write (depth + 1) (out ++ name ++ "(\n" ++ margin (depth + 1)) ++ ",\n" ++
      margin depth ++ ")"
  | .list [], out => out ++ "[]"
  | .list (x :: xs), out => writeItems (depth + 1) (x :: xs) (out ++ "[\n") ++ margin depth ++ "]"

def writeFields (depth : Nat) : List (String × Outline) → String → String
  | [], out => out
  | (name, content) :: fields, out =>
    writeFields depth fields
      (content.write depth (out ++ margin depth ++ name ++ ": ") ++ ",\n")

def writeItems (depth : Nat) : List Outline → String → String
  | [], out => out
  | item :: items, out =>
    writeItems depth items (item.write depth (out ++ margin depth) ++ ",\n")

end

def render (o : Outline) : String := o.write 0 ""

def ofString (s : String) : Outline := .line (Text.quoted s)
def ofSpan (s : Span) : Outline := .line s.text
def ofStrings (ss : List String) : Outline := .list (ss.map ofString)

def node (name : String) (kind : Outline) (span : Span) : Outline :=
  .record name [("kind", kind), ("span", ofSpan span)]

end Outline

def BinaryOp.outlineName : BinaryOp → String
  | add => "Add"
  | sub => "Sub"
  | mul => "Mul"
  | div => "Div"
  | eq => "Eq"
  | lt => "Lt"
  | le => "LtEq"
  | gt => "Gt"
  | ge => "GtEq"
  | and => "And"
  | or => "Or"

def UnaryOp.outlineName : UnaryOp → String
  | neg => "Neg"
  | not => "Not"

def Ident.outline (i : Ident) : Outline :=
  .record "Ident" [("name", .ofString i.name), ("span", .ofSpan i.span)]

mutual

def Expr.outline : Expr → Outline
  | .number value raw s =>
    .node "Expr" (.record "NumericLiteral"
      [("value", .line (Decimal.Notation.explicit.write value)), ("raw", .ofString raw)]) s
  | .string value raw s =>
    .node "Expr" (.record "StringLiteral"
      [("value", .ofString value), ("raw", .ofString raw)]) s
  | .boolean value raw s =>
    .node "Expr" (.record "BooleanLiteral"
      [("value", .line (if value then "true" else "false")), ("raw", .ofString raw)]) s
  | .tuple es s =>
    .node "Expr" (.record "TupleLiteral" [("elements", .list (Expr.outlines es))]) s
  | .ident name s => .node "Expr" (.record "Identifier" [("name", .ofString name)]) s
  | .binary op a b s =>
    .node "Expr" (.record "Binary"
      [("left", a.outline), ("op", .line op.outlineName), ("right", b.outline)]) s
  | .unary op a s =>
    .node "Expr" (.record "Unary" [("op", .line op.outlineName), ("operand", a.outline)]) s
  | .call f args s =>
    .node "Expr" (.record "Call"
      [("callee", f.outline), ("args", .list (Expr.outlines args))]) s
  | .matching params clauses s =>
    .node "Expr" (.variant "Match" (.record "MatchExpr"
      [("params", .list (params.map Ident.outline)),
        ("cases", .list (Clause.outlines clauses)), ("span", .ofSpan s)])) s

def Expr.outlines : List Expr → List Outline
  | [] => []
  | e :: es => e.outline :: Expr.outlines es

def Clause.outline : Clause → Outline
  | .guarded condition body s =>
    .record "MatchCase"
      [("condition", .variant "Some" condition.outline), ("body", body.outline),
        ("span", .ofSpan s)]
  | .catchAll body s =>
    .record "MatchCase"
      [("condition", .line "None"), ("body", body.outline), ("span", .ofSpan s)]

def Clause.outlines : List Clause → List Outline
  | [] => []
  | c :: cs => c.outline :: Clause.outlines cs

end

def Match.outline (m : Match) : Outline :=
  .record "MatchExpr"
    [("params", .list (m.params.map Ident.outline)),
      ("cases", .list (Clause.outlines m.clauses)), ("span", .ofSpan m.span)]

def FunctionDecl.outline (d : FunctionDecl) : Outline :=
  .record "FunctionDecl"
    [("name", .ofString d.name), ("param_types", .ofStrings d.paramTypes),
      ("return_type", .ofString d.returnType), ("params", .ofStrings d.params),
      ("body", d.body.outline)]

def Statement.outline : Statement → Outline
  | .define typeName name init s =>
    .node "Statement" (.record "VariableDeclaration"
      [("var_type", .ofString typeName), ("name", .ofString name),
        ("initializer", init.outline)]) s
  | .function d s => .node "Statement" (.variant "FunctionDeclaration" d.outline) s
  | .expression e s =>
    .node "Statement" (.record "ExpressionStatement" [("expression", e.outline)]) s
  | .comment text s => .node "Statement" (.record "Comment" [("value", .ofString text)]) s

def Program.outline (p : Program) : Outline :=
  .record "Program" [("body", .list (p.statements.map Statement.outline))]

end Clausal
