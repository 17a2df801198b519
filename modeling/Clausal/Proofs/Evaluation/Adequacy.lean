import Mathlib
import Clausal.Proofs.Evaluation.Scope
import Clausal.Proofs.Evaluation.Semantics

/-!
The machine computes what expressions mean. Working off an expression delivers an outcome to
whatever is pending, and that outcome shows the one that the rules give: the same value, or a
failure of the same cause in the same place. Every expression has an outcome by the rules, since
each call uses up room, so the two agree in both directions.
-/

namespace Clausal

/-- The failure of the machine has the cause and the place of the fault; a value is itself. -/
inductive Shows {α : Type} : Except EvalError α → Except Fault α → Prop
  | value (a : α) : Shows (.ok a) (.ok a)
  | fault (e : EvalError) {place : Span} (h : e.span = some place) :
      Shows (.error e) (.error ⟨e.cause, place⟩)

/-- The outcome once the expression at a place is left. -/
def Outcome.located (place : Span) : Outcome → Outcome
  | .ok v => .ok v
  | .error e => .error (e.orSpan place)

/-- The outcome once a call is left, on whose stack it was reached. -/
def Outcome.left (stack : CallStack) : Outcome → Outcome
  | .ok v => .ok v
  | .error e => .error (stack.attach e)

namespace Shows

theorem located {outcome : Outcome} {o : Except Fault Value} (h : Shows outcome o)
    (place : Span) : Shows (outcome.located place) o := by
  cases h with
  | value v => exact .value v
  | @fault e first h =>
      have hspan : (e.orSpan place).span = some first := by
        rw [EvalError.orSpan, h]
        rfl
      exact .fault (e.orSpan place) hspan

/-- A failure without a place gets the place of the expression that is left. -/
theorem located_of_span {e : EvalError} (h : e.span = none) (place : Span) :
    Shows (Outcome.located place (.error e)) (.error ⟨e.cause, place⟩) := by
  refine .fault (e.orSpan place) ?_
  rw [EvalError.orSpan, h]
  rfl

theorem left {outcome : Outcome} {o : Except Fault Value} (h : Shows outcome o)
    (stack : CallStack) : Shows (outcome.left stack) o := by
  cases h with
  | value v => exact .value v
  | @fault e place h =>
      rw [← stack.cause_attach e]
      exact .fault (stack.attach e) ((stack.span_attach e).trans h)

/-- A failure shows one fault, and a value one value. -/
theorem unique {α : Type} {outcome : Except EvalError α} {o o' : Except Fault α}
    (h : Shows outcome o) (h' : Shows outcome o') : o = o' := by
  cases h with
  | value a =>
      cases h'
      rfl
  | fault e hplace =>
      cases h' with
      | fault _ hplace' => rw [Option.some.inj (hplace.symm.trans hplace')]

theorem map {α β : Type} {outcome : Except EvalError α} {o : Except Fault α}
    (h : Shows outcome o) (f : α → β) : Shows (outcome.map f) (o.map f) := by
  cases h with
  | value a => exact .value (f a)
  | fault e h => exact .fault e h

end Shows

namespace Machine

/-- The machine works off the expression and delivers the outcome to what is pending. -/
def Answers (i : Interpreter) (e : Expr) (outcome : Outcome) : Prop :=
  ∀ rest, run ⟨.evaluate e, rest, i⟩ = run ⟨.deliver outcome, rest, i⟩

/-- Expressions one after the other, up to the first that fails. -/
inductive AnswersAll (i : Interpreter) : List Expr → Except EvalError (List Value) → Prop
  | nil : AnswersAll i [] (.ok [])
  | cons {e : Expr} {es : List Expr} {v : Value} {outcome : Except EvalError (List Value)}
      (h : Answers i e (.ok v)) (later : AnswersAll i es outcome) :
      AnswersAll i (e :: es) (outcome.map (v :: ·))
  | fails {e : Expr} {x : EvalError} (es : List Expr) (h : Answers i e (.error x)) :
      AnswersAll i (e :: es) (.error x)

section Working

variable {i : Interpreter} {rest : List Pending}

theorem run_deliver_located (outcome : Outcome) (place : Span) :
    run ⟨.deliver outcome, .located place :: rest, i⟩ =
      run ⟨.deliver (outcome.located place), rest, i⟩ := by
  cases outcome <;> exact run_of_next rfl

/-- An error goes past what only waits for a value. -/
theorem run_deliver_error_cons {e : EvalError} {p : Pending}
    (h : unwind e p rest i = ⟨.deliver (.error e), rest, i⟩) :
    run ⟨.deliver (.error e), p :: rest, i⟩ = run ⟨.deliver (.error e), rest, i⟩ := by
  have hstep : step ⟨.deliver (.error e), p :: rest, i⟩ = .next (unwind e p rest i) := rfl
  rw [run_of_next hstep, h]

/-- An expression is worked off if its first step leads to an outcome for what is pending. -/
theorem answers_of_enter {e : Expr} {outcome : Outcome}
    (h : ∀ rest, run (enter e rest i) = run ⟨.deliver outcome, rest, i⟩) :
    Answers i e (outcome.located e.span) := by
  intro rest
  have hstep : step ⟨.evaluate e, rest, i⟩ = .next (enter e (.located e.span :: rest) i) := rfl
  rw [run_of_next hstep, h, run_deliver_located]

/-- The elements that are left, after one that has a value. -/
theorem run_elements {es : List Expr} {outcome : Except EvalError (List Value)}
    (h : AnswersAll i es outcome) (earlier : List Value) (v : Value) :
    run ⟨.deliver (.ok v), .elements earlier es :: rest, i⟩ =
      run ⟨.deliver (outcome.map fun vs => .tuple (earlier.reverse ++ v :: vs)), rest, i⟩ := by
  induction h generalizing earlier v with
  | nil =>
      refine (run_of_next rfl).trans ?_
      simp only [receive, List.reverse_cons]
      rfl
  | cons h later ih =>
      refine (run_of_next rfl).trans ((h _).trans ((ih (v :: earlier) _).trans ?_))
      rename_i outcome
      cases outcome with
      | ok vs => simp [Except.map]
      | error x => rfl
  | fails es h => exact (run_of_next rfl).trans ((h _).trans (run_deliver_error_cons rfl))

/-- A tuple answers with its members, or with the error of the first that has none. -/
theorem run_tuple {es : List Expr} {outcome : Except EvalError (List Value)}
    (h : AnswersAll i es outcome) (s : Span) :
    run (enter (.tuple es s) rest i) = run ⟨.deliver (outcome.map .tuple), rest, i⟩ := by
  cases h with
  | nil => rfl
  | @cons e es v outcome h later =>
      refine (h _).trans ((run_elements later [] v).trans ?_)
      cases outcome with
      | ok vs => rfl
      | error x => rfl
  | fails es h => exact (h _).trans (run_deliver_error_cons rfl)

/-- The arguments that are left all have values, and the call is made. -/
theorem run_proceed_ok {f : FunctionValue} {es : List Expr} {vs : List Value}
    (h : AnswersAll i es (.ok vs)) (earlier : List Value) (site : Span) :
    run (proceed f earlier es site rest i) =
      run ⟨.invoke f (earlier.reverse ++ vs) (some site), rest, i⟩ := by
  induction es generalizing earlier vs with
  | nil =>
      cases h
      rw [List.append_nil]
      rfl
  | cons e es ih =>
      generalize houtcome : Except.ok vs = all at h
      cases h with
      | @cons _ _ v outcome h later =>
          cases outcome with
          | error x => cases houtcome
          | ok ws =>
              cases houtcome
              refine (h _).trans ((run_of_next rfl).trans ((ih later (v :: earlier)).trans ?_))
              simp
      | fails _ h => cases houtcome

theorem run_proceed_error {f : FunctionValue} {es : List Expr} {x : EvalError}
    (h : AnswersAll i es (.error x)) (earlier : List Value) (site : Span) :
    run (proceed f earlier es site rest i) = run ⟨.deliver (.error x), rest, i⟩ := by
  induction es generalizing earlier with
  | nil => cases h
  | cons e es ih =>
      generalize houtcome : Except.error x = all at h
      cases h with
      | @cons _ _ v outcome h later =>
          cases outcome with
          | ok ws => cases houtcome
          | error y =>
              cases houtcome
              exact (h _).trans ((run_of_next rfl).trans (ih later (v :: earlier)))
      | fails _ h =>
          cases houtcome
          exact (h _).trans (run_deliver_error_cons rfl)

/-- A body that is worked off in a call is worked off for the caller. -/
theorem run_leave {locals : Option Scope} {stack : CallStack} {frame : Frame}
    (hpush : i.stack.push? frame = some stack) (outcome : Outcome) :
    run ⟨.deliver outcome, .leave i.env.locals :: rest, ⟨i.env.withLocals locals, stack⟩⟩ =
      run ⟨.deliver (outcome.left stack), rest, i⟩ := by
  have hback := interpreter_after_leave locals hpush
  cases outcome with
  | ok v =>
      refine (run_of_next rfl).trans ?_
      simp only [receive, hback]
      rfl
  | error e =>
      refine (run_of_next rfl).trans ?_
      simp only [unwind, hback]
      rfl

end Working

/-- Where in a computation the interpreter is. -/
structure At (limit : Nat) (globals : Scope) (locals : Option Scope) (depth : Nat)
    (i : Interpreter) : Prop where
  limit : i.stack.limit = some limit
  globals : i.env.globals = globals
  locals : i.env.locals = locals
  depth : i.stack.depth = depth

section Adequate

variable {limit : Nat} {globals : Scope} {locals : Option Scope} {depth : Nat} {i : Interpreter}

theorem At.capacity (h : At limit globals locals depth i) : i.stack.capacity = limit := by
  rw [CallStack.capacity, h.limit]
  rfl

/-- What a name is found to be is what it resolves to. -/
theorem At.lookup?_eq_some_iff (h : At limit globals locals depth i) {name : String} {v : Value} :
    i.env.lookup? name = some v ↔ Resolves globals locals name v := by
  rw [Environment.lookup?_eq_some_iff, h.globals, h.locals]

theorem At.lookup?_eq_none (h : At limit globals locals depth i) {name : String}
    (hnone : ∀ v, ¬ Resolves globals locals name v) : i.env.lookup? name = none := by
  refine Option.eq_none_iff_forall_ne_some.mpr fun v hv => ?_
  exact hnone v (h.lookup?_eq_some_iff.mp hv)

/-- Entering the body of a call. -/
theorem At.push (h : At limit globals locals depth i) (hdepth : depth < limit) (frame : Frame)
    (scope : Scope) :
    ∃ stack, i.stack.push? frame = some stack ∧
      At limit globals (some scope) (depth + 1) ⟨i.env.withLocals (some scope), stack⟩ := by
  have hroom : i.stack.depth < i.stack.capacity := by
    rw [h.capacity, h.depth]
    exact hdepth
  exact ⟨_, if_pos hroom, h.limit, h.globals, rfl, congrArg (· + 1) h.depth⟩

/-- As many calls as the limit leave no room for one more. -/
theorem At.push?_eq_none (h : At limit globals locals depth i) (hdepth : limit ≤ depth)
    (frame : Frame) : i.stack.push? frame = none := by
  refine if_neg ?_
  rw [h.capacity, h.depth]
  omega

/-- Operands that an operation computes nothing of are refused, by their kinds. -/
theorem apply_undefined {op : BinaryOp} {x y : Value} (h : ∀ v, ¬ op.Computes x y v) :
    op.apply x y = .error (.ofCause (.invalidBinary op x.kind y.kind)) := by
  have hnone : op.value? x y = none := by
    refine Option.eq_none_iff_forall_ne_some.mpr fun v hv => ?_
    exact h v (BinaryOp.value?_eq_some_iff.mp hv)
  rw [BinaryOp.apply, hnone]

theorem apply_computes {op : BinaryOp} {x y v : Value} (h : op.Computes x y v) :
    op.apply x y = .ok v := by
  rw [BinaryOp.apply, BinaryOp.value?_eq_some_iff.mpr h]

theorem apply_unary_undefined {op : UnaryOp} {x : Value} (h : ∀ v, ¬ op.Computes x v) :
    op.apply x = .error (.ofCause (.invalidUnary op x.kind)) := by
  have hnone : op.value? x = none := by
    refine Option.eq_none_iff_forall_ne_some.mpr fun v hv => ?_
    exact h v (UnaryOp.value?_eq_some_iff.mp hv)
  rw [UnaryOp.apply, hnone]

theorem apply_unary_computes {op : UnaryOp} {x v : Value} (h : op.Computes x v) :
    op.apply x = .ok v := by
  rw [UnaryOp.apply, UnaryOp.value?_eq_some_iff.mpr h]

theorem run_applyTo_notCallable {v : Value} (h : v.kind ≠ .function) (args : List Expr)
    (site : Span) (rest : List Pending) :
    applyTo v args site rest i =
      ⟨.deliver (.error (.ofCause (.notCallable v.kind))), rest, i⟩ := by
  cases v with
  | function f => exact absurd rfl h
  | _ => rfl

theorem run_branch_notBoolean {v : Value} (h : v.kind ≠ .boolean) (condition : Span)
    (body : Expr) (later : List Clause) (place : Span) (rest : List Pending) :
    branch v condition body later place rest i =
      ⟨.deliver (.error ((EvalError.ofCause (.nonBoolCondition v.kind)).orSpan condition)),
        rest, i⟩ := by
  cases v with
  | boolean b => exact absurd rfl h
  | _ => rfl

/-- The scope of a call is determined by what it binds. -/
theorem eq_ofList_of_binds {scope : Scope} {params : List String} {args : List Value}
    (h : scope.Binds params args) : scope = .ofList (params.zip args) := by
  refine Scope.ext_lookup? fun name => ?_
  rw [h name, Scope.lookup?_ofList]

theorem call_arityMismatch {f : FunctionValue} {args : List Value}
    (h : args.length ≠ f.params.length) (site : Option Span) (rest : List Pending) :
    call f args site rest i =
      ⟨.deliver (.error (.ofCause (.arityMismatch f.name f.params.length args.length))),
        rest, i⟩ :=
  if_neg h

/-- A call that finds no room fails before any of its body is run. -/
theorem call_noRoom {f : FunctionValue} {args : List Value} {site : Option Span}
    (harity : args.length = f.params.length) (hpush : i.stack.push? ⟨f.name, site⟩ = none)
    (rest : List Pending) :
    call f args site rest i = ⟨.deliver (.error (i.stack.attach i.stack.overflow)), rest, i⟩ := by
  unfold call FunctionValue.arity
  rw [if_pos harity, hpush]

/-- A call that finds room goes on with the clauses of the function, in a scope of its own. -/
theorem call_enters {f : FunctionValue} {args : List Value} {site : Option Span}
    {stack : CallStack} (harity : args.length = f.params.length)
    (hpush : i.stack.push? ⟨f.name, site⟩ = some stack) (rest : List Pending) :
    call f args site rest i =
      ⟨.choose f.body.clauses f.body.span, .leave i.env.locals :: rest,
        ⟨i.env.withLocals (some (.ofList (f.params.zip args))), stack⟩⟩ := by
  unfold call FunctionValue.arity
  rw [if_pos harity, hpush]

theorem exists_answer {e : Expr} {outcome : Outcome} {o : Except Fault Value}
    (hshows : Shows outcome o)
    (h : ∀ rest, run (enter e rest i) = run ⟨.deliver outcome, rest, i⟩) :
    ∃ outcome, Shows outcome o ∧ Answers i e outcome :=
  ⟨_, hshows.located e.span, answers_of_enter h⟩

/-- A failure that arises in an expression itself has the place of the expression. -/
theorem exists_fault {e : Expr} {cause : EvalError.Cause}
    (h : ∀ rest, run (enter e rest i) = run ⟨.deliver (.error (.ofCause cause)), rest, i⟩) :
    ∃ outcome, Shows outcome (.error ⟨cause, e.span⟩) ∧ Answers i e outcome :=
  ⟨_, Shows.located_of_span rfl e.span, answers_of_enter h⟩

/-- An expression fails as the part of it that is worked off first does. -/
theorem exists_answer_of_part {e part : Expr} {p : Pending} {x : Fault}
    (hfirst : ∀ rest, enter e rest i = ⟨.evaluate part, p :: rest, i⟩)
    (hpasses : ∀ err rest, unwind err p rest i = ⟨.deliver (.error err), rest, i⟩)
    (hpart : ∃ outcome, Shows outcome (.error x) ∧ Answers i part outcome) :
    ∃ outcome, Shows outcome (.error x) ∧ Answers i e outcome := by
  obtain ⟨outcome, hshows, hanswers⟩ := hpart
  cases hshows with
  | fault err hplace =>
      refine exists_answer (.fault err hplace) fun rest => ?_
      rw [hfirst, hanswers, run_deliver_error_cons (hpasses err rest)]

end Adequate

section Rules

variable {limit : Nat} {globals : Scope}

-- The induction is on the derivation by the rules, the four kinds of which nest in one another.
mutual

/-- What the rules give an expression is what the machine answers. -/
theorem answers_of_evaluates :
    ∀ {locals : Option Scope} {depth : Nat} {e : Expr} {o : Except Fault Value},
      Evaluates limit globals locals depth e o → ∀ {i}, At limit globals locals depth i →
        ∃ outcome, Shows outcome o ∧ Answers i e outcome
  | _, _, _, _, .number x raw s, i, _ =>
      exists_answer (Shows.value (Value.number x)) fun _ => rfl
  | _, _, _, _, .string value raw s, i, _ =>
      exists_answer (Shows.value (Value.string value)) fun _ => rfl
  | _, _, _, _, .boolean b raw s, i, _ =>
      exists_answer (Shows.value (Value.boolean b)) fun _ => rfl
  | _, _, _, _, .matching params clauses s, i, _ =>
      exists_answer (Shows.value (Value.function (.anonymous ⟨params, clauses, s⟩))) fun _ => rfl
  | _, _, _, _, .bound s h, i, hi => by
      have hlookup := hi.lookup?_eq_some_iff.mpr h
      refine exists_answer (.value _) fun rest => ?_
      simp only [enter, hlookup]
  | _, _, .ident name s, _, .unbound _ h, i, hi => by
      have hlookup := hi.lookup?_eq_none h
      refine exists_fault (e := .ident name s) fun rest => ?_
      simp only [enter, hlookup]
  | _, _, _, _, .tuple s h, i, hi => by
      obtain ⟨outcome, hshows, hes⟩ := answersAll_of_evaluatesAll h hi
      exact exists_answer (hshows.map Value.tuple) fun rest => run_tuple hes s
  | _, _, _, _, .elementFails s h, i, hi => by
      obtain ⟨outcome, hshows, hes⟩ := answersAll_of_evaluatesAll h hi
      exact exists_answer (hshows.map Value.tuple) fun rest => run_tuple hes s
  | _, _, _, _, .unary s ha h, i, hi => by
      obtain ⟨outcome, hshows, hoperand⟩ := answers_of_evaluates ha hi
      cases hshows
      refine exists_answer (.value _) fun rest => (hoperand _).trans ((run_of_next rfl).trans ?_)
      simp only [receive, apply_unary_computes h]
  | _, _, .unary op a s, _, .unaryUndefined _ ha h, i, hi => by
      obtain ⟨outcome, hshows, hoperand⟩ := answers_of_evaluates ha hi
      cases hshows
      refine exists_fault (e := .unary op a s) fun rest =>
        (hoperand _).trans ((run_of_next rfl).trans ?_)
      simp only [receive, apply_unary_undefined h]
  | _, _, _, _, .operandFails s ha, i, hi =>
      exists_answer_of_part (fun _ => rfl) (fun _ _ => rfl) (answers_of_evaluates ha hi)
  | _, _, _, _, .binary s ha hb h, i, hi => by
      obtain ⟨_, hshows, hleft⟩ := answers_of_evaluates ha hi
      obtain ⟨_, hshows', hright⟩ := answers_of_evaluates hb hi
      cases hshows
      cases hshows'
      refine exists_answer (.value _) fun rest => (hleft _).trans ((run_of_next rfl).trans
        ((hright _).trans ((run_of_next rfl).trans ?_)))
      simp only [receive, apply_computes h]
  | _, _, .binary op a b s, _, .binaryUndefined _ ha hb h, i, hi => by
      obtain ⟨_, hshows, hleft⟩ := answers_of_evaluates ha hi
      obtain ⟨_, hshows', hright⟩ := answers_of_evaluates hb hi
      cases hshows
      cases hshows'
      refine exists_fault (e := .binary op a b s) fun rest => (hleft _).trans
        ((run_of_next rfl).trans ((hright _).trans ((run_of_next rfl).trans ?_)))
      simp only [receive, apply_undefined h]
  | _, _, _, _, .leftFails s ha, i, hi =>
      exists_answer_of_part (fun _ => rfl) (fun _ _ => rfl) (answers_of_evaluates ha hi)
  | _, _, _, _, .rightFails s ha hb, i, hi => by
      obtain ⟨_, hshows, hleft⟩ := answers_of_evaluates ha hi
      obtain ⟨_, hshows', hright⟩ := answers_of_evaluates hb hi
      cases hshows
      cases hshows' with
      | fault e he =>
          exact exists_answer (.fault e he) fun rest => (hleft _).trans ((run_of_next rfl).trans
            ((hright _).trans (run_deliver_error_cons rfl)))
  | _, _, .call callee args s, _, .call _ hf hvs h, i, hi => by
      obtain ⟨_, hshows, hcallee⟩ := answers_of_evaluates hf hi
      obtain ⟨_, hshows', hargs⟩ := answersAll_of_evaluatesAll hvs hi
      obtain ⟨outcome, hlocated, hcall⟩ := run_invoke_of_invokes h hi
      cases hshows
      cases hshows'
      have henter : ∀ rest, run (enter (.call callee args s) rest i) =
          run ⟨.deliver outcome, rest, i⟩ := fun rest => (hcallee _).trans
        ((run_of_next rfl).trans ((run_proceed_ok hargs [] s).trans (hcall rest)))
      exact ⟨_, hlocated, answers_of_enter henter⟩
  | _, _, _, _, .calleeFails args s hf, i, hi =>
      exists_answer_of_part (fun _ => rfl) (fun _ _ => rfl) (answers_of_evaluates hf hi)
  | _, _, .call callee args s, _, .notCallable _ _ hf h, i, hi => by
      obtain ⟨_, hshows, hcallee⟩ := answers_of_evaluates hf hi
      cases hshows
      exact exists_fault (e := .call callee args s) fun rest => (hcallee _).trans
        ((run_of_next rfl).trans (congrArg run (run_applyTo_notCallable h args s rest)))
  | _, _, _, _, .argumentFails s hf hvs, i, hi => by
      obtain ⟨_, hshows, hcallee⟩ := answers_of_evaluates hf hi
      obtain ⟨_, hshows', hargs⟩ := answersAll_of_evaluatesAll hvs hi
      cases hshows
      cases hshows' with
      | fault e he =>
          exact exists_answer (.fault e he) fun rest => (hcallee _).trans
            ((run_of_next rfl).trans (run_proceed_error hargs [] s))

/-- Expressions one after the other are answered as the rules go through them. -/
theorem answersAll_of_evaluatesAll :
    ∀ {locals : Option Scope} {depth : Nat} {es : List Expr} {o : Except Fault (List Value)},
      EvaluatesAll limit globals locals depth es o → ∀ {i}, At limit globals locals depth i →
        ∃ outcome, Shows outcome o ∧ AnswersAll i es outcome
  | _, _, _, _, .nil, i, _ => ⟨_, .value [], .nil⟩
  | _, _, _, _, .cons (v := v) h later, i, hi => by
      obtain ⟨first, hshows, hfirst⟩ := answers_of_evaluates h hi
      obtain ⟨others, hshows', hothers⟩ := answersAll_of_evaluatesAll later hi
      cases hshows
      exact ⟨_, hshows'.map (v :: ·), .cons hfirst hothers⟩
  | _, _, _, _, .fails es h, i, hi => by
      obtain ⟨first, hshows, hfirst⟩ := answers_of_evaluates h hi
      cases hshows with
      | fault e he => exact ⟨_, .fault e he, .fails es hfirst⟩
  | _, _, _, _, .laterFails (v := v) h later, i, hi => by
      obtain ⟨first, hshows, hfirst⟩ := answers_of_evaluates h hi
      obtain ⟨others, hshows', hothers⟩ := answersAll_of_evaluatesAll later hi
      cases hshows
      exact ⟨_, hshows'.map (v :: ·), .cons hfirst hothers⟩

theorem run_invoke_of_invokes :
    ∀ {depth : Nat} {f : FunctionValue} {args : List Value} {site : Span}
      {o : Except Fault Value}, Invokes limit globals depth f args site o →
        ∀ {locals i}, At limit globals locals depth i →
          ∃ outcome : Outcome, Shows (outcome.located site) o ∧
            ∀ rest, run ⟨.invoke f args (some site), rest, i⟩ = run ⟨.deliver outcome, rest, i⟩
  | _, _, _, _, _, .arityMismatch site h, _, i, _ =>
      ⟨_, Shows.located_of_span rfl site, fun rest =>
        (run_of_next rfl).trans (congrArg run (call_arityMismatch h (some site) rest))⟩
  | _, f, _, _, _, .stackOverflow site harity h, _, i, hi => by
      have hpush := hi.push?_eq_none h ⟨f.name, some site⟩
      have hcause : (i.stack.attach i.stack.overflow).cause = .stackOverflow limit :=
        (i.stack.cause_attach _).trans (congrArg EvalError.Cause.stackOverflow hi.capacity)
      refine ⟨.error (i.stack.attach i.stack.overflow), ?_, fun rest =>
        (run_of_next rfl).trans (congrArg run (call_noRoom harity hpush rest))⟩
      rw [← hcause]
      exact Shows.located_of_span (i.stack.span_attach _) site
  | _, f, _, _, _, .body scope site harity hdepth hscope h, _, i, hi => by
      obtain ⟨stack, hpush, hbody⟩ := hi.push hdepth ⟨f.name, some site⟩ scope
      obtain ⟨outcome, hshows, hchoose⟩ := run_choose_of_selects h hbody
      refine ⟨Outcome.left stack outcome, (hshows.left stack).located site, fun rest => ?_⟩
      rw [eq_ofList_of_binds hscope] at hchoose
      exact (run_of_next rfl).trans ((congrArg run (call_enters harity hpush rest)).trans
        ((hchoose _).trans (run_leave hpush outcome)))

theorem run_choose_of_selects :
    ∀ {locals : Option Scope} {depth : Nat} {clauses : List Clause} {place : Span}
      {o : Except Fault Value}, Selects limit globals locals depth clauses place o →
        ∀ {i}, At limit globals locals depth i →
          ∃ outcome, Shows outcome o ∧
            ∀ rest, run ⟨.choose clauses place, rest, i⟩ = run ⟨.deliver outcome, rest, i⟩
  | _, _, _, _, _, .exhausted place, i, _ =>
      ⟨_, Shows.located_of_span rfl place, fun rest => run_of_next rfl⟩
  | _, _, _, _, _, .catchAll s later place h, i, hi => by
      obtain ⟨outcome, hshows, hbody⟩ := answers_of_evaluates h hi
      exact ⟨outcome, hshows, fun rest => (run_of_next rfl).trans (hbody rest)⟩
  | _, _, _, _, _, .taken s later place ht h, i, hi => by
      obtain ⟨_, hshows, hcondition⟩ := answers_of_evaluates ht hi
      obtain ⟨outcome, hshows', hbody⟩ := answers_of_evaluates h hi
      cases hshows
      exact ⟨outcome, hshows', fun rest => (run_of_next rfl).trans ((hcondition _).trans
        ((run_of_next rfl).trans (hbody rest)))⟩
  | _, _, _, _, _, .passed body s hf h, i, hi => by
      obtain ⟨_, hshows, hcondition⟩ := answers_of_evaluates hf hi
      obtain ⟨outcome, hshows', hlater⟩ := run_choose_of_selects h hi
      cases hshows
      exact ⟨outcome, hshows', fun rest => (run_of_next rfl).trans ((hcondition _).trans
        ((run_of_next rfl).trans (hlater rest)))⟩
  | _, _, _, _, _, .conditionFails body s later place hx, i, hi => by
      obtain ⟨_, hshows, hcondition⟩ := answers_of_evaluates hx hi
      cases hshows with
      | fault e he =>
          exact ⟨_, .fault e he, fun rest => (run_of_next rfl).trans ((hcondition _).trans
            (run_deliver_error_cons rfl))⟩
  | _, _, _, _, _, .notBoolean condition body s later place hv h, i, hi => by
      obtain ⟨_, hshows, hcondition⟩ := answers_of_evaluates hv hi
      cases hshows
      exact ⟨_, Shows.located_of_span rfl condition.span, fun rest => (run_of_next rfl).trans
        ((hcondition _).trans ((run_of_next rfl).trans
          (congrArg run (run_branch_notBoolean h condition.span body later place rest))))⟩

end

end Rules

end Machine

section Totality

variable {limit : Nat} {globals : Scope} {locals : Option Scope} {depth : Nat}

/-- Every call has an outcome where so many calls are active. -/
def CallsHaveOutcomes (limit : Nat) (globals : Scope) (depth : Nat) : Prop :=
  ∀ f args site, ∃ o, Invokes limit globals depth f args site o

theorem exists_evaluates_unary (op : UnaryOp) {a : Expr} {o : Except Fault Value}
    (ha : Evaluates limit globals locals depth a o) (s : Span) :
    ∃ o, Evaluates limit globals locals depth (.unary op a s) o := by
  cases o with
  | error x => exact ⟨_, .operandFails s ha⟩
  | ok x =>
      by_cases hdefined : ∃ v, op.Computes x v
      · obtain ⟨v, hv⟩ := hdefined
        exact ⟨_, .unary s ha hv⟩
      · exact ⟨_, .unaryUndefined s ha (not_exists.mp hdefined)⟩

theorem exists_evaluates_binary (op : BinaryOp) {a b : Expr} {o o' : Except Fault Value}
    (ha : Evaluates limit globals locals depth a o)
    (hb : Evaluates limit globals locals depth b o') (s : Span) :
    ∃ o, Evaluates limit globals locals depth (.binary op a b s) o := by
  cases o with
  | error x => exact ⟨_, .leftFails s ha⟩
  | ok x =>
      cases o' with
      | error y => exact ⟨_, .rightFails s ha hb⟩
      | ok y =>
          by_cases hdefined : ∃ v, op.Computes x y v
          · obtain ⟨v, hv⟩ := hdefined
            exact ⟨_, .binary s ha hb hv⟩
          · exact ⟨_, .binaryUndefined s ha hb (not_exists.mp hdefined)⟩

theorem exists_evaluates_call (hcalls : CallsHaveOutcomes limit globals depth) {callee : Expr}
    {args : List Expr} {o : Except Fault Value} {all : Except Fault (List Value)}
    (hcallee : Evaluates limit globals locals depth callee o)
    (hargs : EvaluatesAll limit globals locals depth args all) (s : Span) :
    ∃ o, Evaluates limit globals locals depth (.call callee args s) o := by
  cases o with
  | error x => exact ⟨_, .calleeFails args s hcallee⟩
  | ok v =>
      by_cases hkind : v.kind = .function
      · cases v with
        | function f =>
            cases all with
            | error x => exact ⟨_, .argumentFails s hcallee hargs⟩
            | ok vs =>
                obtain ⟨o, h⟩ := hcalls f vs s
                exact ⟨o, .call s hcallee hargs h⟩
        | _ => cases hkind
      · exact ⟨_, .notCallable args s hcallee hkind⟩

mutual

/-- An expression has an outcome by the rules where every call from its depth has one. -/
theorem exists_evaluates (hcalls : CallsHaveOutcomes limit globals depth) (e : Expr) :
    ∃ o, Evaluates limit globals locals depth e o :=
  match e with
  | .number x raw s => ⟨_, .number x raw s⟩
  | .string value raw s => ⟨_, .string value raw s⟩
  | .boolean b raw s => ⟨_, .boolean b raw s⟩
  | .matching params clauses s => ⟨_, .matching params clauses s⟩
  | .ident name s => by
      by_cases hbound : ∃ v, Resolves globals locals name v
      · obtain ⟨v, hv⟩ := hbound
        exact ⟨_, .bound s hv⟩
      · exact ⟨_, .unbound s (not_exists.mp hbound)⟩
  | .tuple es s => by
      obtain ⟨all, hes⟩ := exists_evaluatesAll hcalls es
      cases all with
      | ok vs => exact ⟨_, .tuple s hes⟩
      | error x => exact ⟨_, .elementFails s hes⟩
  | .unary op a s => by
      obtain ⟨o, ha⟩ := exists_evaluates hcalls a
      exact exists_evaluates_unary op ha s
  | .binary op a b s => by
      obtain ⟨o, ha⟩ := exists_evaluates hcalls a
      obtain ⟨o', hb⟩ := exists_evaluates hcalls b
      exact exists_evaluates_binary op ha hb s
  | .call callee args s => by
      obtain ⟨o, hcallee⟩ := exists_evaluates hcalls callee
      obtain ⟨all, hargs⟩ := exists_evaluatesAll hcalls args
      exact exists_evaluates_call hcalls hcallee hargs s

theorem exists_evaluatesAll (hcalls : CallsHaveOutcomes limit globals depth) (es : List Expr) :
    ∃ o, EvaluatesAll limit globals locals depth es o :=
  match es with
  | [] => ⟨_, .nil⟩
  | e :: es => by
      obtain ⟨o, he⟩ := exists_evaluates hcalls e
      obtain ⟨all, hes⟩ := exists_evaluatesAll hcalls es
      cases o with
      | error x => exact ⟨_, .fails es he⟩
      | ok v =>
          cases all with
          | ok vs => exact ⟨_, .cons he hes⟩
          | error x => exact ⟨_, .laterFails he hes⟩

end

/-- Clauses have an outcome by the rules where every call from their depth has one. -/
theorem exists_selects (hcalls : CallsHaveOutcomes limit globals depth) (clauses : List Clause)
    (place : Span) : ∃ o, Selects limit globals locals depth clauses place o := by
  induction clauses with
  | nil => exact ⟨_, .exhausted place⟩
  | cons clause later ih =>
      cases clause with
      | catchAll body s =>
          obtain ⟨o, hbody⟩ := exists_evaluates hcalls body
          exact ⟨o, .catchAll s later place hbody⟩
      | guarded condition body s =>
          obtain ⟨o, hcondition⟩ := exists_evaluates hcalls condition
          cases o with
          | error x => exact ⟨_, .conditionFails body s later place hcondition⟩
          | ok v =>
              by_cases hkind : v.kind = .boolean
              · cases v with
                | boolean b =>
                    cases b with
                    | true =>
                        obtain ⟨o, hbody⟩ := exists_evaluates hcalls body
                        exact ⟨o, .taken s later place hcondition hbody⟩
                    | false =>
                        obtain ⟨o, hlater⟩ := ih
                        exact ⟨o, .passed body s hcondition hlater⟩
                | _ => cases hkind
              · exact ⟨_, .notBoolean condition body s later place hcondition hkind⟩

/-- The calls nest no deeper than the limit, so the induction is on the room that is left. -/
theorem callsHaveOutcomes (room : Nat) (h : limit - depth ≤ room) :
    CallsHaveOutcomes limit globals depth := by
  induction room generalizing depth with
  | zero =>
      intro f args site
      by_cases harity : args.length = f.params.length
      · exact ⟨_, .stackOverflow site harity (by omega)⟩
      · exact ⟨_, .arityMismatch site harity⟩
  | succ room ih =>
      intro f args site
      by_cases harity : args.length = f.params.length
      · by_cases hdepth : depth < limit
        · have hbinds : (Scope.ofList (f.params.zip args)).Binds f.params args :=
            fun name => Scope.lookup?_ofList (f.params.zip args) name
          have hcalls : CallsHaveOutcomes limit globals (depth + 1) := ih (by omega)
          obtain ⟨o, hbody⟩ := exists_selects hcalls f.body.clauses f.body.span
          exact ⟨o, .body _ site harity hdepth hbinds hbody⟩
        · exact ⟨_, .stackOverflow site harity (by omega)⟩
      · exact ⟨_, .arityMismatch site harity⟩

end Totality

namespace Interpreter

/-- Whatever the rules give is shown by what the interpreter returns. -/
theorem shows_evaluate {limit : Nat} {i : Interpreter} (hlimit : i.limit = some limit) {e : Expr}
    {o : Except Fault Value}
    (h : Evaluates limit i.globals i.env.locals i.stack.depth e o) :
    Shows (i.evaluate e).1 o := by
  have hat : Machine.At limit i.globals i.env.locals i.stack.depth i := ⟨hlimit, rfl, rfl, rfl⟩
  obtain ⟨outcome, hshows, hanswers⟩ := Machine.answers_of_evaluates h hat
  have hrun : i.evaluate e = (outcome, i) :=
    (hanswers []).trans (Machine.run_of_done rfl)
  rw [hrun]
  exact hshows

/-- With a finite limit an expression evaluates to a value if and only if the rules give this
value, and fails with a cause in a place if and only if the rules give this fault. The rules give
exactly one outcome. -/
theorem evaluate_iff_evaluates {limit : Nat} {i : Interpreter} (hlimit : i.limit = some limit)
    (e : Expr) :
    (∀ v, (i.evaluate e).1 = .ok v ↔
      Evaluates limit i.globals i.env.locals i.stack.depth e (.ok v)) ∧
    (∀ cause place,
      (∃ backtrace, (i.evaluate e).1 = .error ⟨cause, some place, backtrace⟩) ↔
        Evaluates limit i.globals i.env.locals i.stack.depth e (.error ⟨cause, place⟩)) ∧
    ∃ o, ∀ o', Evaluates limit i.globals i.env.locals i.stack.depth e o' ↔ o' = o := by
  obtain ⟨o, ho⟩ : ∃ o, Evaluates limit i.globals i.env.locals i.stack.depth e o :=
    exists_evaluates (callsHaveOutcomes _ (Nat.le_refl _)) e
  have hshows := shows_evaluate hlimit ho
  have hunique : ∀ o', Evaluates limit i.globals i.env.locals i.stack.depth e o' → o' = o :=
    fun o' ho' => (shows_evaluate hlimit ho').unique hshows
  refine ⟨fun v => ⟨fun hv => ?_, fun hv => ?_⟩, fun cause place => ⟨?_, fun hx => ?_⟩,
    o, fun o' => ⟨hunique o', fun heq => heq ▸ ho⟩⟩
  · rw [hv] at hshows
    cases hshows
    exact ho
  · rw [← hunique _ hv] at hshows
    generalize (i.evaluate e).1 = outcome at hshows
    cases hshows
    rfl
  · rintro ⟨backtrace, hx⟩
    rw [hx] at hshows
    cases hshows with
    | fault _ hplace =>
        cases hplace
        exact ho
  · rw [← hunique _ hx] at hshows
    generalize (i.evaluate e).1 = outcome at hshows
    generalize hfault : Except.error (⟨cause, place⟩ : Fault) = o' at hshows
    cases hshows with
    | value v => cases hfault
    | fault err hplace =>
        obtain ⟨rfl, rfl⟩ : cause = err.cause ∧ place = _ := by
          injection hfault with hfault
          injection hfault with hcause hplace
          exact ⟨hcause, hplace⟩
        exact ⟨err.backtrace, by rw [← hplace]⟩

/-- A function with one name for both parameters, which says whether the argument holds. -/
private def repeatsParameter : FunctionValue :=
  .anonymous ⟨[⟨"x", .point 0⟩, ⟨"x", .point 1⟩],
    [.guarded (.ident "x" (.point 2)) (.string "yes" "'yes'" (.point 3)) (.point 4)], .point 5⟩

/-- A call of it with two arguments, in a call. -/
private def repeatedParameter (a b : Expr) : Expr :=
  .call (.ident "f" (.point 6)) [a, b] (.point 7)

theorem evaluate_iff_evaluates_repeatedParameter :
    let i : Interpreter :=
      ⟨⟨.ofList [("f", .function repeatsParameter)], some (.ofList [("t", .boolean true)])⟩,
        ⟨[⟨"g", none⟩], some 2, 1, rfl⟩⟩
    i.limit = some 2 ∧
      Evaluates 2 i.globals i.env.locals 1
        (repeatedParameter (.boolean false "false" (.point 8)) (.ident "t" (.point 9)))
        (.ok (.string "yes")) ∧
      Evaluates 2 i.globals i.env.locals 1
        (repeatedParameter (.ident "t" (.point 8)) (.boolean false "false" (.point 9)))
        (.error ⟨.noMatchingClause, .point 5⟩) ∧
      ∃ backtrace, (i.evaluate (repeatedParameter (.ident "u" (.point 8))
        (.string "" "''" (.point 9)))).1 =
          .error ⟨.undefinedVariable "u", some (.point 8), backtrace⟩ := by
  intro i
  have hlimit : i.limit = some 2 := rfl
  refine ⟨hlimit, ((evaluate_iff_evaluates hlimit _).1 _).mp (by cbv),
    ((evaluate_iff_evaluates hlimit _).2.1 _ _).mp
      ⟨some ⟨[⟨repeatsParameter.name, some (.point 7)⟩, ⟨"g", none⟩], 0⟩, by cbv⟩,
    ((evaluate_iff_evaluates hlimit _).2.1 _ _).mpr ?_⟩
  have hfree : ∀ v, ¬ Resolves i.globals i.env.locals "u" v := by
    intro v hv
    cases hv with
    | argument h => cases h
    | global _ h => cases h
  refine .argumentFails _ (.bound _ (.global ?_ rfl)) (.fails _ (.unbound _ hfree))
  rintro scope ⟨⟩
  rfl

end Interpreter

end Clausal
