import Clausal.Evaluation.CallStack
import Clausal.Evaluation.Environment
import Clausal.Value.Operation

/-!
Evaluation in single steps. A state says what is done next, what is left to do with its outcome,
and holds the interpreter, whose bindings and active calls a call changes on entering and puts
back on leaving. What is left to do is a list, so the depth of a recursion is bounded by the call
stack alone.
-/

namespace Clausal

structure Interpreter where
  env : Environment
  stack : CallStack

namespace Machine

/-- What is done next. -/
inductive Control
  | evaluate (e : Expr)
  /-- Takes the first clause that applies, of a match at a place. -/
  | choose (clauses : List Clause) (place : Span)
  | invoke (f : FunctionValue) (args : List Value) (site : Option Span)
  | deliver (outcome : Outcome)

/-- What is done with an outcome. -/
inductive Pending
  /-- The left operand is awaited. -/
  | rightOperand (op : BinaryOp) (right : Expr)
  | combine (op : BinaryOp) (left : Value)
  | operate (op : UnaryOp)
  /-- An element is awaited; the earlier ones are in reverse order. -/
  | elements (earlier : List Value) (later : List Expr)
  /-- The function of a call is awaited. -/
  | callee (args : List Expr) (site : Span)
  /-- An argument is awaited; the earlier ones are in reverse order. -/
  | arguments (f : FunctionValue) (earlier : List Value) (later : List Expr) (site : Span)
  /-- The condition of a clause is awaited. -/
  | guard (condition : Span) (body : Expr) (later : List Clause) (place : Span)
  /-- An expression is left: an error without a place gets its place. -/
  | located (span : Span)
  /-- A call is left: the bindings of the caller are put back. -/
  | leave (saved : Option Scope)

structure State where
  control : Control
  pending : List Pending
  interpreter : Interpreter

inductive Step
  | next (s : State)
  | done (outcome : Outcome) (i : Interpreter)

def enter (e : Expr) (rest : List Pending) (i : Interpreter) : State :=
  match e with
  | .number v _ _ => ⟨.deliver (.ok (.number v)), rest, i⟩
  | .string v _ _ => ⟨.deliver (.ok (.string v)), rest, i⟩
  | .boolean v _ _ => ⟨.deliver (.ok (.boolean v)), rest, i⟩
  | .tuple [] _ => ⟨.deliver (.ok (.tuple [])), rest, i⟩
  | .tuple (e :: es) _ => ⟨.evaluate e, .elements [] es :: rest, i⟩
  | .ident name _ =>
    match i.env.lookup? name with
    | some v => ⟨.deliver (.ok v), rest, i⟩
    | none => ⟨.deliver (.error (.ofCause (.undefinedVariable name))), rest, i⟩
  | .binary op a b _ => ⟨.evaluate a, .rightOperand op b :: rest, i⟩
  | .unary op a _ => ⟨.evaluate a, .operate op :: rest, i⟩
  | .call f args s => ⟨.evaluate f, .callee args s :: rest, i⟩
  | .matching params clauses s =>
    ⟨.deliver (.ok (.function (.anonymous ⟨params, clauses, s⟩))), rest, i⟩

/-- A call with the arguments evaluated: the number of arguments is checked first, then the room
on the stack. The body sees the arguments and the globals. -/
def call (f : FunctionValue) (args : List Value) (site : Option Span) (rest : List Pending)
    (i : Interpreter) : State :=
  if args.length = f.arity then
    match i.stack.push? ⟨f.name, site⟩ with
    | some stack =>
      ⟨.choose f.body.clauses f.body.span, .leave i.env.locals :: rest,
        ⟨i.env.withLocals (some (.ofList (f.params.zip args))), stack⟩⟩
    | none => ⟨.deliver (.error (i.stack.attach i.stack.overflow)), rest, i⟩
  else ⟨.deliver (.error (.ofCause (.arityMismatch f.name f.arity args.length))), rest, i⟩

def proceed (f : FunctionValue) (earlier : List Value) (later : List Expr) (site : Span)
    (rest : List Pending) (i : Interpreter) : State :=
  match later with
  | [] => ⟨.invoke f earlier.reverse (some site), rest, i⟩
  | e :: es => ⟨.evaluate e, .arguments f earlier es site :: rest, i⟩

def applyTo (v : Value) (args : List Expr) (site : Span) (rest : List Pending)
    (i : Interpreter) : State :=
  match v with
  | .function f => proceed f [] args site rest i
  | v => ⟨.deliver (.error (.ofCause (.notCallable v.kind))), rest, i⟩

def branch (v : Value) (condition : Span) (body : Expr) (later : List Clause) (place : Span)
    (rest : List Pending) (i : Interpreter) : State :=
  match v with
  | .boolean true => ⟨.evaluate body, rest, i⟩
  | .boolean false => ⟨.choose later place, rest, i⟩
  | v => ⟨.deliver (.error ((EvalError.ofCause (.nonBoolCondition v.kind)).orSpan condition)),
      rest, i⟩

def receive (v : Value) (p : Pending) (rest : List Pending) (i : Interpreter) : State :=
  match p with
  | .rightOperand op right => ⟨.evaluate right, .combine op v :: rest, i⟩
  | .combine op left => ⟨.deliver (op.apply left v), rest, i⟩
  | .operate op => ⟨.deliver (op.apply v), rest, i⟩
  | .elements earlier [] => ⟨.deliver (.ok (.tuple (v :: earlier).reverse)), rest, i⟩
  | .elements earlier (e :: es) => ⟨.evaluate e, .elements (v :: earlier) es :: rest, i⟩
  | .callee args site => applyTo v args site rest i
  | .arguments f earlier later site => proceed f (v :: earlier) later site rest i
  | .guard condition body later place => branch v condition body later place rest i
  | .located _ => ⟨.deliver (.ok v), rest, i⟩
  | .leave saved => ⟨.deliver (.ok v), rest, ⟨i.env.withLocals saved, i.stack.pop⟩⟩

def unwind (e : EvalError) (p : Pending) (rest : List Pending) (i : Interpreter) : State :=
  match p with
  | .located span => ⟨.deliver (.error (e.orSpan span)), rest, i⟩
  | .leave saved =>
    ⟨.deliver (.error (i.stack.attach e)), rest, ⟨i.env.withLocals saved, i.stack.pop⟩⟩
  | _ => ⟨.deliver (.error e), rest, i⟩

def step (s : State) : Step :=
  match s.control with
  | .evaluate e => .next (enter e (.located e.span :: s.pending) s.interpreter)
  | .choose [] place =>
    .next ⟨.deliver (.error ((EvalError.ofCause .noMatchingClause).orSpan place)), s.pending,
      s.interpreter⟩
  | .choose (.catchAll body _ :: _) _ => .next ⟨.evaluate body, s.pending, s.interpreter⟩
  | .choose (.guarded condition body _ :: later) place =>
    .next ⟨.evaluate condition, .guard condition.span body later place :: s.pending,
      s.interpreter⟩
  | .invoke f args site => .next (call f args site s.pending s.interpreter)
  | .deliver outcome =>
    match s.pending with
    | [] => .done outcome s.interpreter
    | p :: rest =>
      match outcome with
      | .ok v => .next (receive v p rest s.interpreter)
      | .error e => .next (unwind e p rest s.interpreter)

end Machine

end Clausal
