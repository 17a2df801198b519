import Clausal.Report.Diagnostic
import Clausal.Token
import Clausal.Tree.Operator
import Clausal.Value

/-!
Kinds, operators and codes by the names that they are written with, for a program that drives this
one over text. Like the files of a run they stand at its outer edge: nothing that reads, runs or
reports a source asks for them.
-/

namespace Clausal

/-- The first of the values that is written like this. -/
def withName? {α : Type} (name : α → String) (values : List α) (s : String) : Option α :=
  values.find? fun a => name a == s

def Token.Kind.ofName? : String → Option Token.Kind :=
  withName? name [comment, string, keyword, typeName, boolean, number, identifier, arrow, compareOp,
    logicOp, arithOp, assign, leftParen, rightParen, leftBracket, rightBracket, leftBrace,
    rightBrace, comma, semicolon, blank]

def Value.Kind.ofName? : String → Option Value.Kind :=
  withName? name [number, string, boolean, null, tuple, function]

def BinaryOp.ofSymbol? : String → Option BinaryOp :=
  withName? symbol [add, sub, mul, div, eq, lt, le, gt, ge, and, or]

def UnaryOp.ofSymbol? : String → Option UnaryOp := withName? symbol [neg, not]

def Report.Code.ofText? : String → Option Report.Code :=
  withName? text [unexpectedCharacter, unterminatedString, malformedNumber, expectedToken,
    unexpectedToken, unexpectedEnd, missingReturnType, expectedClause, invalidNumber,
    undefinedVariable, notCallable, arityMismatch, invalidBinary, invalidUnary, nonBoolCondition,
    noMatchingClause, stackOverflow]

end Clausal
