import Clausal.Report.Diagnostic
import Clausal.Value

/-!
Why a program stops. A failure has a cause, the place of the expression that failed, and, when it
happened inside a call, the calls that were active.
-/

namespace Clausal

/-- A call that is active: the name of the function and the place of the call. -/
structure Frame where
  name : String
  site : Option Span
  deriving DecidableEq

/-- Active calls, the most recent one first. The outermost calls of a deep stack are only
counted. -/
structure Backtrace where
  frames : List Frame
  omitted : Nat
  deriving DecidableEq

namespace Backtrace

def frameLine (index : Nat) (f : Frame) : String :=
  let place := match f.site with
    | some s => " at " ++ s.text
    | none => ""
  "  " ++ toString index ++ ": " ++ f.name ++ place

def text (b : Backtrace) : String :=
  let lines := String.intercalate "\n" (b.frames.mapIdx frameLine)
  if b.omitted = 0 then lines else lines ++ "\n  ... " ++ toString b.omitted ++ " more"

end Backtrace

inductive EvalError.Cause
  | undefinedVariable (name : String)
  | notCallable (kind : Value.Kind)
  | arityMismatch (name : String) (expected got : Nat)
  | invalidBinary (op : BinaryOp) (left right : Value.Kind)
  | invalidUnary (op : UnaryOp) (operand : Value.Kind)
  | nonBoolCondition (kind : Value.Kind)
  | noMatchingClause
  | stackOverflow (limit : Nat)
  deriving DecidableEq

namespace EvalError.Cause

def code : Cause → Report.Code
  | undefinedVariable _ => .undefinedVariable
  | notCallable _ => .notCallable
  | arityMismatch .. => .arityMismatch
  | invalidBinary .. => .invalidBinary
  | invalidUnary .. => .invalidUnary
  | nonBoolCondition _ => .nonBoolCondition
  | noMatchingClause => .noMatchingClause
  | stackOverflow _ => .stackOverflow

def message : Cause → String
  | undefinedVariable name => "Variable or function \"" ++ name ++ "\" not found"
  | notCallable kind => "Cannot call non-function type " ++ kind.name
  | arityMismatch name expected got =>
    "Function \"" ++ name ++ "\" expects " ++ toString expected ++ " arguments, got " ++
      toString got
  | invalidBinary op left right =>
    "Binary operator \"" ++ op.symbol ++ "\" not defined for types " ++ left.name ++ " and " ++
      right.name
  | invalidUnary op operand =>
    "Unary operator \"" ++ op.symbol ++ "\" not defined for type " ++ operand.name
  | nonBoolCondition kind => "Match condition must evaluate to bool, got " ++ kind.name
  | noMatchingClause => "No match case matched"
  | stackOverflow limit => "Maximum call depth of " ++ toString limit ++ " exceeded"

def label : Cause → String
  | undefinedVariable _ => "not found in this scope"
  | notCallable _ => "not callable"
  | arityMismatch .. => "wrong number of arguments"
  | invalidBinary .. => "operator not supported for these types"
  | invalidUnary .. => "operator not supported for this type"
  | nonBoolCondition _ => "expected bool"
  | noMatchingClause => "no clause applies"
  | stackOverflow _ => "recursion limit exceeded"

def suggestions : Cause → List String
  | noMatchingClause => ["add an `otherwise` clause to cover remaining cases"]
  | stackOverflow _ => ["check the recursion for a missing base case, or raise --max-depth"]
  | _ => []

end EvalError.Cause

structure EvalError where
  cause : EvalError.Cause
  span : Option Span
  backtrace : Option Backtrace
  deriving DecidableEq

namespace EvalError

def ofCause (cause : Cause) : EvalError := ⟨cause, none, none⟩

/-- Records a place, unless a more precise one is recorded. -/
def orSpan (e : EvalError) (span : Span) : EvalError := { e with span := e.span.or (some span) }

/-- Records the active calls, unless calls are recorded or there are none. -/
def orBacktrace (e : EvalError) (b : Backtrace) : EvalError :=
  if e.backtrace.isNone && !b.frames.isEmpty then { e with backtrace := some b } else e

/-- Whether the bindings made so far have to be given up. -/
def isFatal (e : EvalError) : Bool :=
  match e.cause with
  | .stackOverflow _ => true
  | _ => false

def code (e : EvalError) : Report.Code := e.cause.code

def message (e : EvalError) : String := e.cause.message

def diagnostic (e : EvalError) : Report.Diagnostic where
  code := e.code
  message := e.message
  label := e.span.map fun span => ⟨span, e.cause.label⟩
  notes := e.backtrace.toList.map fun b => "call stack:\n" ++ b.text
  suggestions := e.cause.suggestions

end EvalError

abbrev Outcome := Except EvalError Value

end Clausal
