import Clausal.Evaluation.Interpreter

/-!
What expressions mean, written down apart from the machine: a relation between the globals, the
arguments of the innermost call, the number of active calls, an expression and its outcome. A
failure has a cause and a place, and the rules name the place where it arises. Nothing is caught:
a part that fails has the outcome of the whole.
-/

namespace Clausal

structure Fault where
  cause : EvalError.Cause
  place : Span

/-- The operations that are defined, with their values. -/
inductive BinaryOp.Computes : BinaryOp → Value → Value → Value → Prop
  | sum (x y : Float) : Computes .add (.number x) (.number y) (.number (x + y))
  | difference (x y : Float) : Computes .sub (.number x) (.number y) (.number (x - y))
  | product (x y : Float) : Computes .mul (.number x) (.number y) (.number (x * y))
  | quotient (x y : Float) : Computes .div (.number x) (.number y) (.number (x / y))
  | sameNumber (x y : Float) : Computes .eq (.number x) (.number y) (.boolean (x == y))
  | less (x y : Float) : Computes .lt (.number x) (.number y) (.boolean (decide (x < y)))
  | atMost (x y : Float) : Computes .le (.number x) (.number y) (.boolean (decide (x ≤ y)))
  | greater (x y : Float) : Computes .gt (.number x) (.number y) (.boolean (decide (y < x)))
  | atLeast (x y : Float) : Computes .ge (.number x) (.number y) (.boolean (decide (y ≤ x)))
  | both (a b : Bool) : Computes .and (.boolean a) (.boolean b) (.boolean (a && b))
  | either (a b : Bool) : Computes .or (.boolean a) (.boolean b) (.boolean (a || b))
  | sameBoolean (a b : Bool) : Computes .eq (.boolean a) (.boolean b) (.boolean (a == b))
  | concatenation (s t : String) : Computes .add (.string s) (.string t) (.string (s ++ t))
  | sameString (s t : String) : Computes .eq (.string s) (.string t) (.boolean (s == t))

inductive UnaryOp.Computes : UnaryOp → Value → Value → Prop
  | opposite (x : Float) : Computes .neg (.number x) (.number (-x))
  | negation (b : Bool) : Computes .not (.boolean b) (.boolean (!b))

/-- What a name stands for: an argument hides a global. -/
inductive Resolves (globals : Scope) : Option Scope → String → Value → Prop
  | argument {scope : Scope} {name : String} {v : Value} (h : scope.lookup? name = some v) :
      Resolves globals (some scope) name v
  | global {locals : Option Scope} {name : String} {v : Value}
      (free : ∀ scope, locals = some scope → scope.lookup? name = none)
      (h : globals.lookup? name = some v) : Resolves globals locals name v

/-- The scope holds the arguments under the names of their parameters and nothing else. Under a
name that is repeated it holds the last one. -/
def Scope.Binds (scope : Scope) (params : List String) (args : List Value) : Prop :=
  ∀ name, scope.lookup? name = (params.zip args).reverse.lookup name

mutual

/-- The outcome of an expression, where names mean what they mean in a call with these arguments,
and so many calls are active. -/
inductive Evaluates (limit : Nat) (globals : Scope) :
    Option Scope → Nat → Expr → Except Fault Value → Prop
  | number {locals : Option Scope} {depth : Nat} (x : Float) (raw : String) (s : Span) :
      Evaluates limit globals locals depth (.number x raw s) (.ok (.number x))
  | string {locals : Option Scope} {depth : Nat} (value raw : String) (s : Span) :
      Evaluates limit globals locals depth (.string value raw s) (.ok (.string value))
  | boolean {locals : Option Scope} {depth : Nat} (b : Bool) (raw : String) (s : Span) :
      Evaluates limit globals locals depth (.boolean b raw s) (.ok (.boolean b))
  | matching {locals : Option Scope} {depth : Nat} (params : List Ident) (clauses : List Clause)
      (s : Span) : Evaluates limit globals locals depth (.matching params clauses s)
        (.ok (.function (.anonymous ⟨params, clauses, s⟩)))
  | bound {locals : Option Scope} {depth : Nat} {name : String} {v : Value} (s : Span)
      (h : Resolves globals locals name v) :
      Evaluates limit globals locals depth (.ident name s) (.ok v)
  | unbound {locals : Option Scope} {depth : Nat} {name : String} (s : Span)
      (h : ∀ v, ¬ Resolves globals locals name v) :
      Evaluates limit globals locals depth (.ident name s) (.error ⟨.undefinedVariable name, s⟩)
  | tuple {locals : Option Scope} {depth : Nat} {es : List Expr} {vs : List Value} (s : Span)
      (h : EvaluatesAll limit globals locals depth es (.ok vs)) :
      Evaluates limit globals locals depth (.tuple es s) (.ok (.tuple vs))
  | elementFails {locals : Option Scope} {depth : Nat} {es : List Expr} {x : Fault} (s : Span)
      (h : EvaluatesAll limit globals locals depth es (.error x)) :
      Evaluates limit globals locals depth (.tuple es s) (.error x)
  | unary {locals : Option Scope} {depth : Nat} {op : UnaryOp} {a : Expr} {x v : Value} (s : Span)
      (ha : Evaluates limit globals locals depth a (.ok x)) (h : op.Computes x v) :
      Evaluates limit globals locals depth (.unary op a s) (.ok v)
  | unaryUndefined {locals : Option Scope} {depth : Nat} {op : UnaryOp} {a : Expr} {x : Value}
      (s : Span) (ha : Evaluates limit globals locals depth a (.ok x))
      (h : ∀ v, ¬ op.Computes x v) :
      Evaluates limit globals locals depth (.unary op a s) (.error ⟨.invalidUnary op x.kind, s⟩)
  | operandFails {locals : Option Scope} {depth : Nat} {op : UnaryOp} {a : Expr} {x : Fault}
      (s : Span) (ha : Evaluates limit globals locals depth a (.error x)) :
      Evaluates limit globals locals depth (.unary op a s) (.error x)
  | binary {locals : Option Scope} {depth : Nat} {op : BinaryOp} {a b : Expr} {x y v : Value}
      (s : Span) (ha : Evaluates limit globals locals depth a (.ok x))
      (hb : Evaluates limit globals locals depth b (.ok y)) (h : op.Computes x y v) :
      Evaluates limit globals locals depth (.binary op a b s) (.ok v)
  | binaryUndefined {locals : Option Scope} {depth : Nat} {op : BinaryOp} {a b : Expr}
      {x y : Value} (s : Span) (ha : Evaluates limit globals locals depth a (.ok x))
      (hb : Evaluates limit globals locals depth b (.ok y)) (h : ∀ v, ¬ op.Computes x y v) :
      Evaluates limit globals locals depth (.binary op a b s)
        (.error ⟨.invalidBinary op x.kind y.kind, s⟩)
  | leftFails {locals : Option Scope} {depth : Nat} {op : BinaryOp} {a b : Expr} {x : Fault}
      (s : Span) (ha : Evaluates limit globals locals depth a (.error x)) :
      Evaluates limit globals locals depth (.binary op a b s) (.error x)
  | rightFails {locals : Option Scope} {depth : Nat} {op : BinaryOp} {a b : Expr} {x : Value}
      {y : Fault} (s : Span) (ha : Evaluates limit globals locals depth a (.ok x))
      (hb : Evaluates limit globals locals depth b (.error y)) :
      Evaluates limit globals locals depth (.binary op a b s) (.error y)
  | call {locals : Option Scope} {depth : Nat} {callee : Expr} {args : List Expr}
      {f : FunctionValue} {vs : List Value} {outcome : Except Fault Value} (s : Span)
      (hcallee : Evaluates limit globals locals depth callee (.ok (.function f)))
      (hargs : EvaluatesAll limit globals locals depth args (.ok vs))
      (h : Invokes limit globals depth f vs s outcome) :
      Evaluates limit globals locals depth (.call callee args s) outcome
  | calleeFails {locals : Option Scope} {depth : Nat} {callee : Expr} {x : Fault}
      (args : List Expr) (s : Span)
      (hcallee : Evaluates limit globals locals depth callee (.error x)) :
      Evaluates limit globals locals depth (.call callee args s) (.error x)
  | notCallable {locals : Option Scope} {depth : Nat} {callee : Expr} {v : Value}
      (args : List Expr) (s : Span)
      (hcallee : Evaluates limit globals locals depth callee (.ok v)) (h : v.kind ≠ .function) :
      Evaluates limit globals locals depth (.call callee args s) (.error ⟨.notCallable v.kind, s⟩)
  | argumentFails {locals : Option Scope} {depth : Nat} {callee : Expr} {args : List Expr}
      {f : FunctionValue} {x : Fault} (s : Span)
      (hcallee : Evaluates limit globals locals depth callee (.ok (.function f)))
      (hargs : EvaluatesAll limit globals locals depth args (.error x)) :
      Evaluates limit globals locals depth (.call callee args s) (.error x)

/-- The values of expressions from left to right, or the failure of the first that fails. -/
inductive EvaluatesAll (limit : Nat) (globals : Scope) :
    Option Scope → Nat → List Expr → Except Fault (List Value) → Prop
  | nil {locals : Option Scope} {depth : Nat} :
      EvaluatesAll limit globals locals depth [] (.ok [])
  | cons {locals : Option Scope} {depth : Nat} {e : Expr} {es : List Expr} {v : Value}
      {vs : List Value} (h : Evaluates limit globals locals depth e (.ok v))
      (later : EvaluatesAll limit globals locals depth es (.ok vs)) :
      EvaluatesAll limit globals locals depth (e :: es) (.ok (v :: vs))
  | fails {locals : Option Scope} {depth : Nat} {e : Expr} {x : Fault} (es : List Expr)
      (h : Evaluates limit globals locals depth e (.error x)) :
      EvaluatesAll limit globals locals depth (e :: es) (.error x)
  | laterFails {locals : Option Scope} {depth : Nat} {e : Expr} {es : List Expr} {v : Value}
      {x : Fault} (h : Evaluates limit globals locals depth e (.ok v))
      (later : EvaluatesAll limit globals locals depth es (.error x)) :
      EvaluatesAll limit globals locals depth (e :: es) (.error x)

/-- The outcome of a call made at a place. The body sees the arguments and the globals, with one
more call active. -/
inductive Invokes (limit : Nat) (globals : Scope) :
    Nat → FunctionValue → List Value → Span → Except Fault Value → Prop
  | arityMismatch {depth : Nat} {f : FunctionValue} {args : List Value} (site : Span)
      (h : args.length ≠ f.params.length) : Invokes limit globals depth f args site
        (.error ⟨.arityMismatch f.name f.params.length args.length, site⟩)
  | stackOverflow {depth : Nat} {f : FunctionValue} {args : List Value} (site : Span)
      (harity : args.length = f.params.length) (h : limit ≤ depth) :
      Invokes limit globals depth f args site (.error ⟨.stackOverflow limit, site⟩)
  | body {depth : Nat} {f : FunctionValue} {args : List Value} {outcome : Except Fault Value}
      (scope : Scope) (site : Span) (harity : args.length = f.params.length)
      (hdepth : depth < limit) (hscope : scope.Binds f.params args)
      (h : Selects limit globals (some scope) (depth + 1) f.body.clauses f.body.span outcome) :
      Invokes limit globals depth f args site outcome

/-- The outcome of the first clause that applies, of a match at a place. -/
inductive Selects (limit : Nat) (globals : Scope) :
    Option Scope → Nat → List Clause → Span → Except Fault Value → Prop
  | exhausted {locals : Option Scope} {depth : Nat} (place : Span) :
      Selects limit globals locals depth [] place (.error ⟨.noMatchingClause, place⟩)
  | catchAll {locals : Option Scope} {depth : Nat} {body : Expr} {outcome : Except Fault Value}
      (s : Span) (later : List Clause) (place : Span)
      (h : Evaluates limit globals locals depth body outcome) :
      Selects limit globals locals depth (.catchAll body s :: later) place outcome
  | taken {locals : Option Scope} {depth : Nat} {condition body : Expr}
      {outcome : Except Fault Value} (s : Span) (later : List Clause) (place : Span)
      (hcondition : Evaluates limit globals locals depth condition (.ok (.boolean true)))
      (h : Evaluates limit globals locals depth body outcome) :
      Selects limit globals locals depth (.guarded condition body s :: later) place outcome
  | passed {locals : Option Scope} {depth : Nat} {condition : Expr} {later : List Clause}
      {place : Span} {outcome : Except Fault Value} (body : Expr) (s : Span)
      (hcondition : Evaluates limit globals locals depth condition (.ok (.boolean false)))
      (h : Selects limit globals locals depth later place outcome) :
      Selects limit globals locals depth (.guarded condition body s :: later) place outcome
  | conditionFails {locals : Option Scope} {depth : Nat} {condition : Expr} {x : Fault}
      (body : Expr) (s : Span) (later : List Clause) (place : Span)
      (hcondition : Evaluates limit globals locals depth condition (.error x)) :
      Selects limit globals locals depth (.guarded condition body s :: later) place (.error x)
  | notBoolean {locals : Option Scope} {depth : Nat} {v : Value} (condition body : Expr)
      (s : Span) (later : List Clause) (place : Span)
      (hcondition : Evaluates limit globals locals depth condition (.ok v))
      (h : v.kind ≠ .boolean) :
      Selects limit globals locals depth (.guarded condition body s :: later) place
        (.error ⟨.nonBoolCondition v.kind, condition.span⟩)

end

/-- The operators of the machine have the values that are written down here. -/
theorem BinaryOp.value?_eq_some_iff {op : BinaryOp} {left right v : Value} :
    op.value? left right = some v ↔ op.Computes left right v := by
  constructor
  · intro h
    unfold value? at h
    split at h
    · cases op <;> cases h <;> constructor
    · cases op <;> cases h <;> constructor
    · cases op <;> cases h <;> constructor
    · cases h
  · intro h
    cases h <;> rfl

theorem UnaryOp.value?_eq_some_iff {op : UnaryOp} {operand v : Value} :
    op.value? operand = some v ↔ op.Computes operand v := by
  constructor
  · intro h
    unfold value? at h
    split at h
    · cases h
      exact .opposite _
    · cases h
      exact .negation _
    · cases h
  · intro h
    cases h <;> rfl

/-- A name is looked up as it resolves. -/
theorem Environment.lookup?_eq_some_iff {env : Environment} {name : String} {v : Value} :
    env.lookup? name = some v ↔ Resolves env.globals env.locals name v := by
  obtain ⟨globals, locals⟩ := env
  constructor
  · intro h
    cases locals with
    | none => exact .global nofun h
    | some scope =>
        cases hscope : scope.lookup? name with
        | some w =>
            obtain rfl : w = v := by
              simpa [lookup?, hscope] using h
            exact .argument hscope
        | none =>
            refine .global (fun _ hs => Option.some.inj hs ▸ hscope) ?_
            simpa [lookup?, hscope] using h
  · intro h
    cases h with
    | argument h => simp [lookup?, h]
    | global free h =>
        cases locals with
        | none => simpa [lookup?] using h
        | some scope => simpa [lookup?, free scope rfl] using h

end Clausal
