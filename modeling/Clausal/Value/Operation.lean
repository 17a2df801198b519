import Clausal.Evaluation.Failure

/-!
Operators on values. Numbers have arithmetic and comparison, booleans conjunction and
disjunction, strings concatenation, and all three equality; no other operands are accepted.
-/

namespace Clausal

namespace BinaryOp

def onNumbers? (x y : Float) : BinaryOp → Option Value
  | add => some (.number (x + y))
  | sub => some (.number (x - y))
  | mul => some (.number (x * y))
  | div => some (.number (x / y))
  | eq => some (.boolean (x == y))
  | lt => some (.boolean (decide (x < y)))
  | le => some (.boolean (decide (x ≤ y)))
  | gt => some (.boolean (decide (y < x)))
  | ge => some (.boolean (decide (y ≤ x)))
  | and | or => none

def onBooleans? (a b : Bool) : BinaryOp → Option Value
  | and => some (.boolean (a && b))
  | or => some (.boolean (a || b))
  | eq => some (.boolean (a == b))
  | _ => none

def onStrings? (s t : String) : BinaryOp → Option Value
  | add => some (.string (s ++ t))
  | eq => some (.boolean (s == t))
  | _ => none

def value? (op : BinaryOp) : Value → Value → Option Value
  | .number x, .number y => op.onNumbers? x y
  | .boolean a, .boolean b => op.onBooleans? a b
  | .string s, .string t => op.onStrings? s t
  | _, _ => none

def apply (op : BinaryOp) (left right : Value) : Outcome :=
  match op.value? left right with
  | some v => .ok v
  | none => .error (.ofCause (.invalidBinary op left.kind right.kind))

/-- A binary operator gives a number, a string or a boolean, or it fails. -/
theorem apply_cases {P : Outcome → Prop} (number : ∀ x, P (.ok (.number x)))
    (string : ∀ s, P (.ok (.string s))) (boolean : ∀ b, P (.ok (.boolean b)))
    (error : ∀ cause, P (.error (.ofCause cause))) (op : BinaryOp) (v w : Value) :
    P (op.apply v w) := by
  have hvalue {u : Value} (h : op.value? v w = some u) : P (.ok u) := by
    unfold value? at h
    split at h
    · cases op <;> cases h <;> first | exact number _ | exact boolean _
    · cases op <;> cases h <;> exact boolean _
    · cases op <;> cases h <;> first | exact string _ | exact boolean _
    · cases h
  unfold apply
  split
  · next u hu => exact hvalue hu
  · exact error _

end BinaryOp

namespace UnaryOp

def value? : UnaryOp → Value → Option Value
  | neg, .number x => some (.number (-x))
  | not, .boolean b => some (.boolean (!b))
  | _, _ => none

def apply (op : UnaryOp) (operand : Value) : Outcome :=
  match op.value? operand with
  | some v => .ok v
  | none => .error (.ofCause (.invalidUnary op operand.kind))

/-- A unary operator gives a number or a boolean, or it fails. -/
theorem apply_cases {P : Outcome → Prop} (number : ∀ x, P (.ok (.number x)))
    (boolean : ∀ b, P (.ok (.boolean b))) (error : ∀ cause, P (.error (.ofCause cause)))
    (op : UnaryOp) (v : Value) : P (op.apply v) := by
  have hvalue {u : Value} (h : op.value? v = some u) : P (.ok u) := by
    unfold value? at h
    split at h
    · cases h
      exact number _
    · cases h
      exact boolean _
    · cases h
  unfold apply
  split
  · next u hu => exact hvalue hu
  · exact error _

end UnaryOp

end Clausal
