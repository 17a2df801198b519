import Clausal.Decimal.Binary64
import Clausal.Token.Lexeme

/-!
The values that literals stand for. A string literal loses its quotes and the backslashes of the
escapes it knows; any other escape is kept as written. A number literal is rounded to the nearest
64-bit number.
-/

namespace Clausal.Literal

def escape? : Char → Option Char
  | 'n' => some '\n'
  | 'r' => some '\r'
  | 't' => some '\t'
  | '0' => some '\x00'
  | '\\' => some '\\'
  | '"' => some '"'
  | _ => none

/-- The text between the quotes; a text that lacks one of them is left alone. -/
def unquoted : List Char → List Char
  | '"' :: cs => if cs.getLast? = some '"' then cs.dropLast else '"' :: cs
  | cs => cs

def unescaped : List Char → List Char
  | [] => []
  | ['\\'] => ['\\']
  | '\\' :: c :: cs =>
    match escape? c with
    | some value => value :: unescaped cs
    | none => '\\' :: c :: unescaped cs
  | c :: cs => c :: unescaped cs

def stringValue (raw : String) : String := String.ofList (unescaped (unquoted raw.toList))

def digitsValue (cs : List Char) : Nat := cs.foldl (fun n c => 10 * n + (c.toNat - '0'.toNat)) 0

/-- The number nearest to the quotient that the literal writes; infinite when out of range. -/
def numberValue (raw : String) : Float :=
  let whole := raw.toList.takeWhile Lexeme.isDigit
  let places := (raw.toList.dropWhile Lexeme.isDigit).drop 1
  Decimal.Binary64.nearest (digitsValue (whole ++ places)) (Nat.pow 10 places.length)

/-- The value of a number literal that is in range. -/
def numberValue? (raw : String) : Option Float :=
  let x := numberValue raw
  if x.isFinite then some x else none

end Clausal.Literal
