/-!
Operators, and how tightly the binary ones bind.
-/

namespace Clausal

inductive BinaryOp
  | add
  | sub
  | mul
  | div
  | eq
  | lt
  | le
  | gt
  | ge
  | and
  | or
  deriving DecidableEq

namespace BinaryOp

def symbol : BinaryOp → String
  | add => "+"
  | sub => "-"
  | mul => "*"
  | div => "/"
  | eq => "=="
  | lt => "<"
  | le => "<="
  | gt => ">"
  | ge => ">="
  | and => "&&"
  | or => "||"

/-- The level of the operator, from one for the tightest to six for the loosest. Operators of one
level associate to the left. -/
def precedence : BinaryOp → Nat
  | mul | div => 1
  | add | sub => 2
  | lt | le | gt | ge => 3
  | eq => 4
  | and => 5
  | or => 6

def loosest : Nat := 6

theorem precedence_pos (op : BinaryOp) : 0 < op.precedence := by cases op <;> decide

theorem precedence_le_loosest (op : BinaryOp) : op.precedence ≤ loosest := by
  cases op <;> decide

end BinaryOp

inductive UnaryOp
  | neg
  | not
  deriving DecidableEq

namespace UnaryOp

def symbol : UnaryOp → String
  | neg => "-"
  | not => "!"

end UnaryOp

end Clausal
