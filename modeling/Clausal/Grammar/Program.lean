import Clausal.Grammar.Expression

/-!
The grammar of statements and programs. The first token tells what a statement is: a comment, a
function declaration that starts with its type list, a definition that starts with a type, or an
expression. A source is read up to its first error.
-/

namespace Clausal

namespace Parser

def typeName : Parser String := do
  if ← look (·.checkAny [.typeName, .identifier]) then
    let t ← consume
    return t.text
  else
    let t ← expect .typeName
    return t.text

/-- Types up to the closing bracket, which is left in place; there may be none. -/
def typeNames (rounds : Nat) : Parser (List String) := do
  if ← checkText .compareOp ">" then return []
  else commaSeparated typeName rounds

/-- Types between angle brackets; the list may come back empty. -/
def typeList (rounds : Nat) : Parser (List String) :=
  within .typeList do
    let _ ← expectText .compareOp "<"
    let types ← typeNames rounds
    let _ ← expectText .compareOp ">"
    return types

/-- The part of a function declaration that gives its match: parameters and one expression, or an
expression that is a match or stands for one without parameters. -/
def functionBody (rounds : Nat) : Parser Match := do
  if ← check .leftParen then
    let params ← parameters rounds
    let _ ← expect .assign
    let body ← expression rounds
    return .always params body
  else
    let _ ← expect .assign
    let body ← expression rounds
    return .ofExpr body

/-- The last type of the list is the type of the result. -/
def functionDeclaration (rounds : Nat) : Parser Statement :=
  within .functionDeclaration do
    let start ← look Cursor.currentSpan
    let types ← typeList rounds
    match types.getLast? with
    | none =>
      let stop ← look Cursor.previous
      fail ⟨.missingReturnType, start.merge stop, none⟩
    | some returnType =>
      let name ← expect .identifier
      let body ← functionBody rounds
      let stop ← expect .semicolon
      return .function ⟨name.text, types.dropLast, returnType, body.paramNames, body⟩
        (start.merge stop.span)

def definition (rounds : Nat) : Parser Statement :=
  within .variableDeclaration do
    let typeName ← expect .typeName
    let name ← expect .identifier
    let _ ← expect .assign
    let init ← expression rounds
    let stop ← expect .semicolon
    return .define typeName.text name.text init (typeName.span.merge stop.span)

def expressionStatement (rounds : Nat) : Parser Statement :=
  within .expressionStatement do
    let e ← expression rounds
    let stop ← expect .semicolon
    return .expression e (e.span.merge stop.span)

def statement (rounds : Nat) : Parser Statement := do
  if ← check .comment then
    let t ← consume
    return .comment t.text t.span
  else if ← checkText .compareOp "<" then functionDeclaration rounds
  else if ← check .typeName then definition rounds
  else expressionStatement rounds

def statements (nesting : Nat) : Nat → Parser (List Statement)
  | 0 => starve
  | rounds + 1 => do
    if ← look Cursor.atEnd then return []
    else
      let first ← statement nesting
      let others ← statements nesting rounds
      return first :: others

end Parser

namespace Program

/-- Reads all items. Every round steps over an item, and an expression takes two more rounds than
it has items at most, so the answer for a reader that starves is never given. -/
def ofItems (items : List Token.Item) (endOffset : Nat) : Except ParseError Program :=
  let rounds := items.length + 2
  match Cursor.ofItems items endOffset with
  | .error e => .error e
  | .ok start =>
    match Parser.statements rounds rounds start with
    | .ok statements _ => .ok ⟨statements⟩
    | .error e => .error e
    | .starved => .error ⟨.unexpectedEnd .token, .point endOffset, none⟩

def ofStream (s : TokenStream) : Except ParseError Program :=
  ofItems s.items (clampOffset s.source.utf8ByteSize)

def parse (source : String) : Except ParseError Program := ofStream (.ofSource source)

end Program

end Clausal
