import Clausal.Evaluation.Interpreter
import Clausal.Proofs.Tree.Spans

/-!
Evaluation does not look at labels. Spans and the spellings of literals are handed on and never
inspected, so a program with other labels makes the same steps, from bindings with other labels to
the same bindings, up to labels, and to the same values or failures.
-/

namespace Clausal

/-- A change of the spans and of the spellings of literals. -/
structure Relabeling where
  span : Span → Span
  expr : Expr → Expr
  clause : Clause → Clause
  number : ∀ x raw s, ∃ raw', expr (.number x raw s) = .number x raw' (span s)
  string : ∀ value raw s, ∃ raw', expr (.string value raw s) = .string value raw' (span s)
  boolean : ∀ b raw s, ∃ raw', expr (.boolean b raw s) = .boolean b raw' (span s)
  tuple : ∀ es s, expr (.tuple es s) = .tuple (es.map expr) (span s)
  ident : ∀ name s, expr (.ident name s) = .ident name (span s)
  binary : ∀ op a b s, expr (.binary op a b s) = .binary op (expr a) (expr b) (span s)
  unary : ∀ op a s, expr (.unary op a s) = .unary op (expr a) (span s)
  call : ∀ f args s, expr (.call f args s) = .call (expr f) (args.map expr) (span s)
  matching : ∀ params clauses s, expr (.matching params clauses s) =
    .matching (params.map (·.mapSpan span)) (clauses.map clause) (span s)
  guarded : ∀ condition body s,
    clause (.guarded condition body s) = .guarded (expr condition) (expr body) (span s)
  catchAll : ∀ body s, clause (.catchAll body s) = .catchAll (expr body) (span s)

namespace Relabeling

def ofSpans (f : Span → Span) : Relabeling where
  span := f
  expr := Expr.mapSpans f
  clause := Clause.mapSpans f
  number _ raw _ := ⟨raw, rfl⟩
  string _ raw _ := ⟨raw, rfl⟩
  boolean _ raw _ := ⟨raw, rfl⟩
  tuple es s := by rw [Expr.mapSpans, Expr.mapSpansOfList_eq]
  ident _ _ := rfl
  binary _ _ _ _ := rfl
  unary _ _ _ := rfl
  call f args s := by rw [Expr.mapSpans, Expr.mapSpansOfList_eq]
  matching params clauses s := by rw [Expr.mapSpans, Clause.mapSpansOfList_eq]
  guarded _ _ _ := rfl
  catchAll _ _ := rfl

variable (r : Relabeling)

theorem span_expr (e : Expr) : (r.expr e).span = r.span e.span := by
  cases e with
  | number x raw s =>
      obtain ⟨raw', h⟩ := r.number x raw s
      rw [h]
      rfl
  | string value raw s =>
      obtain ⟨raw', h⟩ := r.string value raw s
      rw [h]
      rfl
  | boolean b raw s =>
      obtain ⟨raw', h⟩ := r.boolean b raw s
      rw [h]
      rfl
  | tuple es s => rw [r.tuple]; rfl
  | ident name s => rw [r.ident]; rfl
  | binary op a b s => rw [r.binary]; rfl
  | unary op a s => rw [r.unary]; rfl
  | call f args s => rw [r.call]; rfl
  | matching params clauses s => rw [r.matching]; rfl

def onMatch (m : Match) : Match where
  params := m.params.map (·.mapSpan r.span)
  clauses := m.clauses.map r.clause
  span := r.span m.span

def function (f : FunctionValue) : FunctionValue := { f with body := r.onMatch f.body }

theorem paramNames_onMatch (m : Match) : (r.onMatch m).paramNames = m.paramNames := by
  simp [onMatch, Match.paramNames, Ident.mapSpan, Function.comp_def]

mutual

def value : Value → Value
  | .number x => .number x
  | .string s => .string s
  | .boolean b => .boolean b
  | .null => .null
  | .tuple vs => .tuple (values vs)
  | .function f => .function (r.function f)

def values : List Value → List Value
  | [] => []
  | v :: vs => value v :: values vs

end

theorem values_eq (vs : List Value) : r.values vs = vs.map r.value := by
  induction vs with
  | nil => rfl
  | cons v vs ih => rw [values, ih, List.map_cons]

theorem value_tuple (vs : List Value) : r.value (.tuple vs) = .tuple (vs.map r.value) := by
  rw [value, values_eq]

@[simp] theorem kind_value (v : Value) : (r.value v).kind = v.kind := by
  cases v <;> rfl

section Bindings

def scope (s : Scope) : Scope where
  bindings := s.bindings.map fun b => (b.1, r.value b.2)
  ordered := List.pairwise_map.mpr s.ordered

/-- Values are found under their names as before. -/
theorem lookup?_scope (s : Scope) (name : String) :
    (r.scope s).lookup? name = (s.lookup? name).map r.value := by
  have hlookup (bs : List (String × Value)) :
      (bs.map fun b => (b.1, r.value b.2)).lookup name = (bs.lookup name).map r.value := by
    induction bs with
    | nil => rfl
    | cons b bs ih =>
        rw [List.map_cons, List.lookup_cons, List.lookup_cons, ih]
        cases name == b.1 <;> rfl
  exact hlookup s.bindings

theorem insert_map (name : String) (v : Value) (bs : List (String × Value)) :
    Scope.insert name (r.value v) (bs.map fun b => (b.1, r.value b.2)) =
      (Scope.insert name v bs).map fun b => (b.1, r.value b.2) := by
  induction bs with
  | nil => rfl
  | cons b bs ih =>
      obtain ⟨n, w⟩ := b
      simp only [List.map_cons, Scope.insert]
      split
      · rfl
      · split
        · rfl
        · rw [ih, List.map_cons]

theorem scope_define (s : Scope) (name : String) (v : Value) :
    r.scope (s.define name v) = (r.scope s).define name (r.value v) := by
  simp only [scope, Scope.define, Scope.mk.injEq]
  exact (r.insert_map name v s.bindings).symm

theorem scope_ofList (bs : List (String × Value)) :
    r.scope (.ofList bs) = .ofList (bs.map fun b => (b.1, r.value b.2)) := by
  have hfold (s : Scope) : r.scope (bs.foldl (fun s b => s.define b.1 b.2) s) =
      (bs.map fun b => (b.1, r.value b.2)).foldl (fun s b => s.define b.1 b.2) (r.scope s) := by
    induction bs generalizing s with
    | nil => rfl
    | cons b bs ih => rw [List.foldl_cons, ih, scope_define, List.map_cons, List.foldl_cons]
  exact hfold .empty

def environment (env : Environment) : Environment :=
  ⟨r.scope env.globals, env.locals.map r.scope⟩

theorem lookup?_environment (env : Environment) (name : String) :
    (r.environment env).lookup? name = (env.lookup? name).map r.value := by
  obtain ⟨globals, locals⟩ := env
  cases locals with
  | none => exact r.lookup?_scope globals name
  | some s =>
      simp only [environment, Environment.lookup?, Option.map_some, Option.bind_some,
        lookup?_scope]
      cases s.lookup? name <;> rfl

end Bindings

section Calls

def frame (f : Frame) : Frame := { f with site := f.site.map r.span }

def stack (s : CallStack) : CallStack :=
  ⟨s.frames.map r.frame, s.limit, s.depth, by rw [s.depth_eq, List.length_map]⟩

/-- There is room for a frame where there was before. -/
theorem push?_stack (s : CallStack) (f : Frame) :
    (r.stack s).push? (r.frame f) = (s.push? f).map r.stack := by
  by_cases hroom : s.depth < s.capacity
  · have hroom' : (r.stack s).depth < (r.stack s).capacity := hroom
    rw [CallStack.push?, CallStack.push?, if_pos hroom, if_pos hroom']
    rfl
  · have hroom' : ¬ (r.stack s).depth < (r.stack s).capacity := hroom
    rw [CallStack.push?, CallStack.push?, if_neg hroom, if_neg hroom']
    rfl

theorem stack_pop (s : CallStack) : r.stack s.pop = (r.stack s).pop := by
  simp only [stack, CallStack.pop, List.map_tail]

def backtrace (b : Backtrace) : Backtrace := { b with frames := b.frames.map r.frame }

theorem capture_stack (s : CallStack) : (r.stack s).capture = r.backtrace s.capture := by
  simp only [CallStack.capture, stack, backtrace, List.map_take]

def error (e : EvalError) : EvalError :=
  ⟨e.cause, e.span.map r.span, e.backtrace.map r.backtrace⟩

theorem error_orSpan (e : EvalError) (s : Span) :
    r.error (e.orSpan s) = (r.error e).orSpan (r.span s) := by
  obtain ⟨cause, span, backtrace⟩ := e
  cases span <;> rfl

/-- The frames that an error takes along are relabeled with it. -/
theorem error_attach (s : CallStack) (e : EvalError) :
    r.error (s.attach e) = (r.stack s).attach (r.error e) := by
  obtain ⟨cause, span, backtrace⟩ := e
  simp only [CallStack.attach, capture_stack, EvalError.orBacktrace]
  cases backtrace with
  | some b => rfl
  | none =>
      simp only [error, Relabeling.backtrace, Option.map_none, List.isEmpty_map]
      split <;> rfl

def outcome : Outcome → Outcome
  | .ok v => .ok (r.value v)
  | .error e => .error (r.error e)

/-- Operators do not look into functions, so labels are nothing to them. -/
theorem apply_binary (op : BinaryOp) (v w : Value) :
    op.apply (r.value v) (r.value w) = r.outcome (op.apply v w) := by
  have hvalue : op.value? (r.value v) (r.value w) = (op.value? v w).map r.value := by
    cases v <;> cases w <;> cases op <;> rfl
  simp only [BinaryOp.apply, hvalue, kind_value]
  cases op.value? v w <;> rfl

theorem apply_unary (op : UnaryOp) (v : Value) :
    op.apply (r.value v) = r.outcome (op.apply v) := by
  have hvalue : op.value? (r.value v) = (op.value? v).map r.value := by
    cases v <;> cases op <;> rfl
  simp only [UnaryOp.apply, hvalue, kind_value]
  cases op.value? v <;> rfl

end Calls

def interpreter (i : Interpreter) : Interpreter := ⟨r.environment i.env, r.stack i.stack⟩

section Machine

open Machine

def control : Control → Control
  | .evaluate e => .evaluate (r.expr e)
  | .choose clauses place => .choose (clauses.map r.clause) (r.span place)
  | .invoke f args site => .invoke (r.function f) (args.map r.value) (site.map r.span)
  | .deliver outcome => .deliver (r.outcome outcome)

def pending : Pending → Pending
  | .rightOperand op right => .rightOperand op (r.expr right)
  | .combine op left => .combine op (r.value left)
  | .operate op => .operate op
  | .elements earlier later => .elements (earlier.map r.value) (later.map r.expr)
  | .callee args site => .callee (args.map r.expr) (r.span site)
  | .arguments f earlier later site =>
    .arguments (r.function f) (earlier.map r.value) (later.map r.expr) (r.span site)
  | .guard condition body later place =>
    .guard (r.span condition) (r.expr body) (later.map r.clause) (r.span place)
  | .located span => .located (r.span span)
  | .leave saved => .leave (saved.map r.scope)

def state (s : State) : State :=
  ⟨r.control s.control, s.pending.map r.pending, r.interpreter s.interpreter⟩

def step : Step → Step
  | .next s => .next (r.state s)
  | .done outcome i => .done (r.outcome outcome) (r.interpreter i)

variable (rest : List Pending) (i : Interpreter)

theorem state_enter (e : Expr) :
    r.state (enter e rest i) = enter (r.expr e) (rest.map r.pending) (r.interpreter i) := by
  cases e with
  | number x raw s =>
      obtain ⟨raw', h⟩ := r.number x raw s
      rw [h]
      rfl
  | string value raw s =>
      obtain ⟨raw', h⟩ := r.string value raw s
      rw [h]
      rfl
  | boolean b raw s =>
      obtain ⟨raw', h⟩ := r.boolean b raw s
      rw [h]
      rfl
  | tuple es s =>
      rw [r.tuple]
      cases es <;> rfl
  | ident name s =>
      rw [r.ident]
      simp only [enter, interpreter, lookup?_environment]
      cases i.env.lookup? name <;> rfl
  | binary op a b s => rw [r.binary]; rfl
  | unary op a s => rw [r.unary]; rfl
  | call f args s => rw [r.call]; rfl
  | matching params clauses s =>
      have hnames := r.paramNames_onMatch ⟨params, clauses, s⟩
      rw [r.matching]
      simp only [enter, state, control, outcome, value, function, FunctionValue.anonymous]
      rw [← hnames]
      rfl

/-- A call of the relabeled function is the relabeled call. -/
theorem state_call (f : FunctionValue) (args : List Value) (site : Option Span) :
    r.state (Machine.call f args site rest i) =
      Machine.call (r.function f) (args.map r.value) (site.map r.span) (rest.map r.pending)
        (r.interpreter i) := by
  have hpush := r.push?_stack i.stack ⟨f.name, site⟩
  have hscope : r.scope (.ofList (f.params.zip args)) =
      .ofList (f.params.zip (args.map r.value)) := by
    rw [scope_ofList, List.zip_map_right]
    rfl
  have harity : (args.map r.value).length = args.length := List.length_map ..
  by_cases hargs : args.length = f.arity
  · have hargs' : (args.map r.value).length = (r.function f).arity := harity.trans hargs
    rw [Machine.call, Machine.call, if_pos hargs, if_pos hargs']
    have hpush' : (r.interpreter i).stack.push? ⟨(r.function f).name, site.map r.span⟩ =
        (i.stack.push? ⟨f.name, site⟩).map r.stack := hpush
    rw [hpush']
    cases i.stack.push? ⟨f.name, site⟩ with
    | some stack =>
        simp only [Option.map_some, state, control, List.map_cons, pending, interpreter,
          environment, Environment.withLocals, hscope]
        rfl
    | none =>
        simp only [Option.map_none, state, control, outcome, error_attach]
        rfl
  · have hargs' : ¬ (args.map r.value).length = (r.function f).arity := harity ▸ hargs
    rw [Machine.call, Machine.call, if_neg hargs, if_neg hargs', harity]
    rfl

theorem state_proceed (f : FunctionValue) (earlier : List Value) (later : List Expr)
    (site : Span) :
    r.state (proceed f earlier later site rest i) =
      proceed (r.function f) (earlier.map r.value) (later.map r.expr) (r.span site)
        (rest.map r.pending) (r.interpreter i) := by
  cases later with
  | nil =>
      simp only [proceed, List.map_nil, ← List.map_reverse]
      rfl
  | cons e es => rfl

theorem state_applyTo (v : Value) (args : List Expr) (site : Span) :
    r.state (applyTo v args site rest i) =
      applyTo (r.value v) (args.map r.expr) (r.span site) (rest.map r.pending)
        (r.interpreter i) := by
  cases v with
  | function f => exact r.state_proceed rest i f [] args site
  | _ => rfl

theorem state_branch (v : Value) (condition : Span) (body : Expr) (later : List Clause)
    (place : Span) :
    r.state (branch v condition body later place rest i) =
      branch (r.value v) (r.span condition) (r.expr body) (later.map r.clause) (r.span place)
        (rest.map r.pending) (r.interpreter i) := by
  cases v with
  | boolean b => cases b <;> rfl
  | _ => rfl

/-- What a relabeled value is handed to goes on as before. -/
theorem state_receive (v : Value) (p : Pending) :
    r.state (receive v p rest i) =
      receive (r.value v) (r.pending p) (rest.map r.pending) (r.interpreter i) := by
  cases p with
  | rightOperand op right => rfl
  | combine op left =>
      simp only [receive, pending, apply_binary]
      rfl
  | operate op =>
      simp only [receive, pending, apply_unary]
      rfl
  | elements earlier later =>
      cases later with
      | nil =>
          simp only [receive, pending, List.map_nil, ← List.map_cons, ← List.map_reverse,
            ← value_tuple]
          rfl
      | cons e es => rfl
  | callee args site => exact r.state_applyTo rest i v args site
  | arguments f earlier later site => exact r.state_proceed rest i f (v :: earlier) later site
  | guard condition body later place =>
      exact r.state_branch rest i v condition body later place
  | located span => rfl
  | leave saved =>
      simp only [receive, pending, state, interpreter, stack_pop]
      rfl

/-- An error goes past the same work with the new labels as with the old ones. -/
theorem state_unwind (e : EvalError) (p : Pending) :
    r.state (unwind e p rest i) =
      unwind (r.error e) (r.pending p) (rest.map r.pending) (r.interpreter i) := by
  cases p with
  | located span =>
      simp only [unwind, pending, ← error_orSpan]
      rfl
  | leave saved =>
      simp only [unwind, pending, state, control, outcome, interpreter, stack_pop, error_attach]
      rfl
  | _ => rfl

/-- A step is the same step whatever the labels are. -/
theorem step_state (s : State) : Machine.step (r.state s) = r.step (Machine.step s) := by
  obtain ⟨control, pending, i⟩ := s
  cases control with
  | evaluate e =>
      have henter := r.state_enter (.located e.span :: pending) i e
      simp only [state, Relabeling.control, Machine.step, step, span_expr] at henter ⊢
      rw [henter]
      rfl
  | choose clauses place =>
      cases clauses with
      | nil => rfl
      | cons clause later =>
          cases clause with
          | guarded condition body s =>
              simp only [state, Relabeling.control, List.map_cons, r.guarded, Machine.step,
                span_expr]
              rfl
          | catchAll body s =>
              simp only [state, Relabeling.control, List.map_cons, r.catchAll, Machine.step]
              rfl
  | invoke f args site => exact congrArg Step.next (r.state_call pending i f args site).symm
  | deliver outcome =>
      cases pending with
      | nil => rfl
      | cons p rest =>
          cases outcome with
          | ok v => exact congrArg Step.next (r.state_receive rest i v p).symm
          | error e => exact congrArg Step.next (r.state_unwind rest i e p).symm

def answer (a : Outcome × Interpreter) : Outcome × Interpreter :=
  (r.outcome a.1, r.interpreter a.2)

/-- A run is the same run, to the same answer up to labels. -/
theorem run_state (s : State) : run (r.state s) = r.answer (run s) := by
  have hends := ends s
  induction hends with
  | intro s _ ih =>
      cases hstep : Machine.step s with
      | next t =>
          have hnext : Machine.step (r.state s) = .next (r.state t) := by
            rw [step_state, hstep]
            rfl
          rw [run_of_next hstep, run_of_next hnext]
          exact ih t hstep
      | done outcome i =>
          have hdone : Machine.step (r.state s) = .done (r.outcome outcome) (r.interpreter i) := by
            rw [step_state, hstep]
            rfl
          rw [run_of_done hstep, run_of_done hdone]
          rfl

end Machine

section Programs

open Interpreter

def statement : Statement → Statement
  | .define typeName name init s => .define typeName name (r.expr init) (r.span s)
  | .function d s => .function { d with body := r.onMatch d.body } (r.span s)
  | .expression e s => .expression (r.expr e) (r.span s)
  | .comment text s => .comment text (r.span s)

variable (i : Interpreter)

theorem bind_answer (name : String) (a : Outcome × Interpreter) :
    Interpreter.bind name (r.answer a) = r.answer (Interpreter.bind name a) := by
  obtain ⟨result, i⟩ := a
  cases result with
  | ok v =>
      have hdefine := r.scope_define i.env.globals name v
      simp only [answer, Interpreter.bind, interpreter, environment, Environment.defineGlobal,
        outcome, hdefine]
  | error e => rfl

/-- A relabeled expression evaluates to what was there before, relabeled. -/
theorem evaluate_expr (e : Expr) :
    (r.interpreter i).evaluate (r.expr e) = r.answer (i.evaluate e) :=
  r.run_state ⟨.evaluate e, [], i⟩

/-- A relabeled statement does what it did before, relabeled. -/
theorem runStatement_statement (s : Statement) :
    (r.interpreter i).runStatement (r.statement s) = r.answer (i.runStatement s) := by
  cases s with
  | define typeName name init s =>
      simp only [statement, runStatement, evaluate_expr, bind_answer]
  | function d s => exact r.bind_answer d.name (.ok (.function (.ofDecl d)), i)
  | expression e s => exact r.evaluate_expr i e
  | comment text s => rfl

/-- Statements have the same effect whatever their labels are. -/
theorem runFrom_statement (last : Value) (ss : List Statement) :
    (r.interpreter i).runFrom (r.value last) (ss.map r.statement) =
      r.answer (i.runFrom last ss) := by
  induction ss generalizing i last with
  | nil => rfl
  | cons s ss ih =>
      simp only [List.map_cons, runFrom, runStatement_statement]
      obtain ⟨result, j⟩ := i.runStatement s
      cases result with
      | ok v => exact ih j v
      | error e => rfl

end Programs

def erasing : Relabeling := ofSpans Span.erased

/-- To erase the labels of a statement is to take it bare. -/
theorem erasing_statement (s : Statement) : erasing.statement s = s.bare := by
  cases s <;> rfl

end Relabeling

/-- The value with the spans in function bodies ignored. -/
def Value.bare (v : Value) : Value := Relabeling.erasing.value v

def Scope.bare (s : Scope) : Scope := Relabeling.erasing.scope s

namespace Interpreter

def bare (i : Interpreter) : Interpreter := Relabeling.erasing.interpreter i

/-- Statements that are equal with spans ignored lead from bindings to bindings that are equal with
spans ignored. -/
theorem runFrom_bare (i : Interpreter) (last : Value) (ss : List Statement) :
    i.bare.runFrom last.bare (ss.map (·.bare)) = Relabeling.erasing.answer (i.runFrom last ss) := by
  have hstatements : ss.map (·.bare) = ss.map Relabeling.erasing.statement :=
    List.map_congr_left fun s _ => (Relabeling.erasing_statement s).symm
  rw [hstatements]
  exact Relabeling.erasing.runFrom_statement i last ss

end Interpreter

end Clausal
