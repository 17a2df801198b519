import Clausal.Decimal.Notation
import Clausal.Text.Quoted
import Clausal.Tree.Equality

/-!
Values of a running program. A function captures nothing: it is a match with a name, and its body
sees the arguments of the call and the globals only.
-/

namespace Clausal

/-- A function value. The parameters of one that a program makes are those of its match. -/
structure FunctionValue where
  name : String
  params : List String
  body : Match

inductive Value
  | number (x : Float)
  | string (s : String)
  | boolean (b : Bool)
  | null
  | tuple (elements : List Value)
  | function (f : FunctionValue)

inductive Value.Kind
  | number
  | string
  | boolean
  | null
  | tuple
  | function
  deriving DecidableEq

namespace Value.Kind

def name : Kind → String
  | number => "number"
  | string => "string"
  | boolean => "bool"
  | null => "null"
  | tuple => "tuple"
  | function => "function"

end Value.Kind

namespace FunctionValue

/-- The function that a match stands for where an expression is expected. -/
def anonymous (m : Match) : FunctionValue := ⟨"<anonymous>", m.paramNames, m⟩

def ofDecl (d : FunctionDecl) : FunctionValue := ⟨d.name, d.params, d.body⟩

def arity (f : FunctionValue) : Nat := f.params.length

/-- Functions are equal when they are written the same way in the same place. -/
def same (f g : FunctionValue) : Bool :=
  f.name == g.name && f.params == g.params && f.body.same g.body

end FunctionValue

namespace Value

def kind : Value → Kind
  | number _ => .number
  | string _ => .string
  | boolean _ => .boolean
  | null => .null
  | tuple _ => .tuple
  | function _ => .function

def isNull : Value → Bool
  | null => true
  | _ => false

mutual

/-- The text of a value. A string stands for itself, and is quoted where it is an element. -/
def write (element : Bool) : Value → String
  | number x => Decimal.Notation.plain.write x
  | string s => if element then Text.quoted s else s
  | boolean b => if b then "true" else "false"
  | null => "null"
  | tuple elements => "(" ++ writeElements elements ++ ")"
  | function f => "<function " ++ f.name ++ ">"

def writeElements : List Value → String
  | [] => ""
  | [v] => v.write true
  | v :: vs => v.write true ++ ", " ++ writeElements vs

end

def text (v : Value) : String := v.write false

mutual

/-- Equality of values; numbers compare as numbers, so not every value equals itself. -/
def same : Value → Value → Bool
  | number x, number y => x == y
  | string s, string t => s == t
  | boolean a, boolean b => a == b
  | null, null => true
  | tuple vs, tuple ws => sameAll vs ws
  | function f, function g => f.same g
  | _, _ => false

def sameAll : List Value → List Value → Bool
  | [], [] => true
  | v :: vs, w :: ws => v.same w && sameAll vs ws
  | _, _ => false

end

end Value

end Clausal
