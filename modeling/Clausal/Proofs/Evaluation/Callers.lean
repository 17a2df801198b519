import Clausal.Proofs.Evaluation.Adequacy
import Clausal.Proofs.Evaluation.Backtraces

/-!
A call does not depend on who makes it. Two interpreters with the same globals and the same room
run the same call side by side: from its first step on the body sees the arguments and the globals
alone, and what the callers had bound is only put back at the end. The stacks hold the same calls
over those that were active before, so what differs in the end is what an error shows of these.
-/

namespace Clausal

theorem CallStack.capacity_eq {s t : CallStack} (hlimit : t.limit = s.limit) :
    t.capacity = s.capacity := by
  rw [capacity, capacity, hlimit]

/-- Two stacks of the same depth and the same limit both have room for a call, or both have not. -/
theorem CallStack.push?_both {s t : CallStack} (hlimit : t.limit = s.limit)
    (hdepth : t.depth = s.depth) (frame : Frame) :
    (s.push? frame = none ∧ t.push? frame = none) ∨
      ∃ s' t', s.push? frame = some s' ∧ t.push? frame = some t' := by
  have hcapacity := capacity_eq hlimit
  by_cases room : s.depth < s.capacity
  · have room' : t.depth < t.capacity := by omega
    exact .inr ⟨_, _, if_pos room, if_pos room'⟩
  · have full : ¬ t.depth < t.capacity := by omega
    exact .inl ⟨if_neg room, if_neg full⟩

/-- Two callers of one function, with as many calls active. -/
structure Callers where
  /-- The call that both of them make. -/
  call : Frame
  frames : List Frame
  frames' : List Frame
  locals : Option Scope
  locals' : Option Scope
  depth : frames'.length = frames.length

namespace Callers

variable (c : Callers)

/-- The active calls of the one caller, under the call and those that were made in it. -/
def calls (own : List Frame) : List Frame := own ++ c.call :: c.frames

def calls' (own : List Frame) : List Frame := own ++ c.call :: c.frames'

/-- In both calls names mean the same, there is as much room, and the same calls are made. -/
structure Interpreters (own : List Frame) (i j : Interpreter) : Prop where
  env : j.env = i.env
  limit : j.stack.limit = i.stack.limit
  frames : i.stack.frames = c.calls own
  frames' : j.stack.frames = c.calls' own

/-- The same is pending in both calls, and in the end the bindings of the callers. -/
inductive Pendings : List Machine.Pending → List Machine.Pending → Prop
  | last : Pendings [.leave c.locals] [.leave c.locals']
  | cons (p : Machine.Pending) {rest rest' : List Machine.Pending} (h : Pendings rest rest') :
      Pendings (p :: rest) (p :: rest')

/-- The same error, which shows no calls yet or the same calls over those of the callers. -/
inductive Errors : EvalError → EvalError → Prop
  | bare (cause : EvalError.Cause) (span : Option Span) :
      Errors ⟨cause, span, none⟩ ⟨cause, span, none⟩
  | shown (cause : EvalError.Cause) (span : Option Span) (own : List Frame) :
      Errors ⟨cause, span, Backtrace.ofCalls? (c.calls own)⟩
        ⟨cause, span, Backtrace.ofCalls? (c.calls' own)⟩

inductive Controls : Machine.Control → Machine.Control → Prop
  | same {x : Machine.Control} (h : ¬ x.Fails) : Controls x x
  | errors {e e' : EvalError} (h : c.Errors e e') :
      Controls (.deliver (.error e)) (.deliver (.error e'))

structure States (s t : Machine.State) : Prop where
  control : c.Controls s.control t.control
  pending : c.Pendings s.pending t.pending
  interpreter : ∃ own, own.length + 1 = (Machine.saves s.pending).length ∧
    c.Interpreters own s.interpreter t.interpreter

variable {c}

theorem Pendings.saves_length_pos {rest rest' : List Machine.Pending}
    (h : c.Pendings rest rest') : 0 < (Machine.saves rest).length := by
  induction h with
  | last => exact Nat.zero_lt_one
  | cons p h ih =>
      cases hp : p.saved? with
      | none => rwa [Machine.saves, List.filterMap_cons_none hp]
      | some saved =>
          rw [Machine.saves, List.filterMap_cons_some hp]
          exact Nat.succ_pos _

theorem Errors.orSpan {e e' : EvalError} (h : c.Errors e e') (span : Span) :
    c.Errors (e.orSpan span) (e'.orSpan span) := by
  cases h with
  | bare cause first => exact .bare cause _
  | shown cause first own => exact .shown cause _ own

/-- There is a call of its own at least, so the backtrace is taken from the stack. -/
theorem ofCalls?_calls_or (own : List Frame) (b : Option Backtrace) :
    (Backtrace.ofCalls? (c.calls own)).or b = Backtrace.ofCalls? (c.calls own) := by
  cases own <;> rfl

theorem ofCalls?_calls'_or (own : List Frame) (b : Option Backtrace) :
    (Backtrace.ofCalls? (c.calls' own)).or b = Backtrace.ofCalls? (c.calls' own) := by
  cases own <;> rfl

namespace Interpreters

variable {own : List Frame} {i j : Interpreter}

theorem depth (h : c.Interpreters own i j) : j.stack.depth = i.stack.depth := by
  rw [j.stack.depth_eq, i.stack.depth_eq, h.frames', h.frames, calls, calls', List.length_append,
    List.length_append, List.length_cons, List.length_cons, c.depth]

theorem withLocals (h : c.Interpreters own i j) (locals : Option Scope) :
    c.Interpreters own ⟨i.env.withLocals locals, i.stack⟩ ⟨j.env.withLocals locals, j.stack⟩ :=
  ⟨congrArg (·.withLocals locals) h.env, h.limit, h.frames, h.frames'⟩

theorem pop {frame : Frame} (h : c.Interpreters (frame :: own) i j) :
    c.Interpreters own ⟨i.env, i.stack.pop⟩ ⟨j.env, j.stack.pop⟩ :=
  ⟨h.env, h.limit, congrArg List.tail h.frames, congrArg List.tail h.frames'⟩

theorem push (h : c.Interpreters own i j) {frame : Frame} {stack stack' : CallStack}
    (hpush : i.stack.push? frame = some stack) (hpush' : j.stack.push? frame = some stack') :
    c.Interpreters (frame :: own) ⟨i.env, stack⟩ ⟨j.env, stack'⟩ := by
  refine ⟨h.env, ?_, ?_, ?_⟩
  · exact (CallStack.limit_push? hpush').trans (h.limit.trans (CallStack.limit_push? hpush).symm)
  · exact (CallStack.frames_push? hpush).trans (congrArg (frame :: ·) h.frames)
  · exact (CallStack.frames_push? hpush').trans (congrArg (frame :: ·) h.frames')

/-- From the first call on that is left, the errors show the calls that were active. -/
theorem attach (h : c.Interpreters own i j) {e e' : EvalError} (he : c.Errors e e') :
    ∃ cause span own', i.stack.attach e = ⟨cause, span, Backtrace.ofCalls? (c.calls own')⟩ ∧
      j.stack.attach e' = ⟨cause, span, Backtrace.ofCalls? (c.calls' own')⟩ := by
  rw [CallStack.attach_eq, CallStack.attach_eq, h.frames, h.frames']
  cases he with
  | bare cause span => exact ⟨cause, span, own, rfl, rfl⟩
  | shown cause span own' =>
      exact ⟨cause, span, own', by rw [ofCalls?_calls_or], by rw [ofCalls?_calls'_or]⟩

/-- Errors take the own calls along, each in front of the calls of its caller. -/
theorem errors_attach (h : c.Interpreters own i j) {e e' : EvalError} (he : c.Errors e e') :
    c.Errors (i.stack.attach e) (j.stack.attach e') := by
  obtain ⟨cause, span, own', hi, hj⟩ := h.attach he
  rw [hi, hj]
  exact .shown cause span own'

end Interpreters

section Steps

variable {rest rest' : List Machine.Pending} {own : List Frame} {i j : Interpreter}
  (hrest : c.Pendings rest rest') (hown : own.length + 1 = (Machine.saves rest).length)
  (h : c.Interpreters own i j)

include hrest hown h

theorem states_same {x : Machine.Control} (hx : ¬ x.Fails) :
    c.States ⟨x, rest, i⟩ ⟨x, rest', j⟩ :=
  ⟨.same hx, hrest, own, hown, h⟩

theorem states_cons {x : Machine.Control} (hx : ¬ x.Fails) {p : Machine.Pending}
    (hp : p.saved? = none) : c.States ⟨x, p :: rest, i⟩ ⟨x, p :: rest', j⟩ := by
  refine ⟨.same hx, .cons p hrest, own, ?_, h⟩
  rw [hown, Machine.saves, Machine.saves, List.filterMap_cons_none hp]

theorem states_errors {e e' : EvalError} (he : c.Errors e e') :
    c.States ⟨.deliver (.error e), rest, i⟩ ⟨.deliver (.error e'), rest', j⟩ :=
  ⟨.errors he, hrest, own, hown, h⟩

theorem states_evaluate (e : Expr) : c.States ⟨.evaluate e, rest, i⟩ ⟨.evaluate e, rest', j⟩ :=
  states_same hrest hown h (Machine.not_fails_evaluate e)

theorem states_value (v : Value) :
    c.States ⟨.deliver (.ok v), rest, i⟩ ⟨.deliver (.ok v), rest', j⟩ :=
  states_same hrest hown h (Machine.not_fails_ok v)

theorem states_fault (cause : EvalError.Cause) (span : Option Span) :
    c.States ⟨.deliver (.error ⟨cause, span, none⟩), rest, i⟩
      ⟨.deliver (.error ⟨cause, span, none⟩), rest', j⟩ :=
  states_errors hrest hown h (.bare cause span)

theorem states_choose (clauses : List Clause) (place : Span) :
    c.States ⟨.choose clauses place, rest, i⟩ ⟨.choose clauses place, rest', j⟩ :=
  states_same hrest hown h (Machine.not_fails_choose clauses place)

theorem states_awaiting (e : Expr) {p : Machine.Pending} (hp : p.saved? = none) :
    c.States ⟨.evaluate e, p :: rest, i⟩ ⟨.evaluate e, p :: rest', j⟩ :=
  states_cons hrest hown h (Machine.not_fails_evaluate e) hp

theorem states_enter (e : Expr) :
    c.States (Machine.enter e rest i) (Machine.enter e rest' j) := by
  unfold Machine.enter
  split
  case h_6 name _ =>
    rw [h.env]
    split
    · exact states_value hrest hown h _
    · exact states_fault hrest hown h _ none
  all_goals first
    | exact states_value hrest hown h _
    | exact states_awaiting hrest hown h _ rfl

/-- A call from below is entered or refused with both callers alike. -/
theorem states_call (f : FunctionValue) (args : List Value) (site : Option Span) :
    c.States (Machine.call f args site rest i) (Machine.call f args site rest' j) := by
  by_cases harity : args.length = f.arity
  · rcases CallStack.push?_both h.limit h.depth ⟨f.name, site⟩ with
      ⟨full, full'⟩ | ⟨stack, stack', push, push'⟩
    · have he : c.Errors i.stack.overflow j.stack.overflow := by
        rw [CallStack.overflow, CallStack.overflow, CallStack.capacity_eq h.limit]
        exact .bare _ none
      rw [Machine.call_noRoom harity full, Machine.call_noRoom harity full']
      exact states_errors hrest hown h (h.errors_attach he)
    · have hlength : (⟨f.name, site⟩ :: own).length + 1 =
          (Machine.saves (.leave i.env.locals :: rest)).length := by
        rw [List.length_cons, hown]
        rfl
      rw [Machine.call_enters harity push, Machine.call_enters harity push', h.env]
      exact ⟨.same (Machine.not_fails_choose _ _), .cons _ hrest, _, hlength, rfl,
        (h.push push push').limit, (h.push push push').frames, (h.push push push').frames'⟩
  · rw [Machine.call_arityMismatch harity, Machine.call_arityMismatch harity]
    exact states_fault hrest hown h _ none

theorem states_proceed (f : FunctionValue) (earlier : List Value) (later : List Expr)
    (site : Span) : c.States (Machine.proceed f earlier later site rest i)
      (Machine.proceed f earlier later site rest' j) := by
  cases later with
  | nil => exact states_same hrest hown h (Machine.not_fails_invoke _ _ _)
  | cons e es => exact states_awaiting hrest hown h e rfl

theorem states_binary (op : BinaryOp) (v w : Value) :
    c.States ⟨.deliver (op.apply v w), rest, i⟩ ⟨.deliver (op.apply v w), rest', j⟩ := by
  unfold BinaryOp.apply
  split
  · exact states_value hrest hown h _
  · exact states_fault hrest hown h _ none

theorem states_unary (op : UnaryOp) (v : Value) :
    c.States ⟨.deliver (op.apply v), rest, i⟩ ⟨.deliver (op.apply v), rest', j⟩ := by
  unfold UnaryOp.apply
  split
  · exact states_value hrest hown h _
  · exact states_fault hrest hown h _ none

end Steps

section Arrivals

variable {rest rest' : List Machine.Pending} (hrest : c.Pendings rest rest') {own : List Frame}
  {i j : Interpreter} (h : c.Interpreters own i j)

include hrest h

/-- A call that was made in both calls is left in both. -/
theorem interpreters_leave (hown : own.length = (Machine.saves rest).length)
    (saved : Option Scope) :
    ∃ outer, outer.length + 1 = (Machine.saves rest).length ∧
      c.Interpreters outer ⟨i.env.withLocals saved, i.stack.pop⟩
        ⟨j.env.withLocals saved, j.stack.pop⟩ := by
  have hpos : 0 < own.length := hown ▸ hrest.saves_length_pos
  cases own with
  | nil => cases hpos
  | cons frame outer => exact ⟨outer, hown, (h.withLocals saved).pop⟩

/-- A value is handed to the same work with both callers. -/
theorem states_receive {p : Machine.Pending}
    (hown : own.length + 1 = (Machine.saves (p :: rest)).length) (v : Value) :
    c.States (Machine.receive v p rest i) (Machine.receive v p rest' j) := by
  cases p with
  | rightOperand op right => exact states_awaiting hrest hown h right rfl
  | combine op left => exact states_binary hrest hown h op left v
  | operate op => exact states_unary hrest hown h op v
  | elements earlier later =>
      cases later with
      | nil => exact states_value hrest hown h _
      | cons e es => exact states_awaiting hrest hown h e rfl
  | callee args site =>
      simp only [Machine.receive, Machine.applyTo]
      split
      · exact states_proceed hrest hown h _ _ _ _
      · exact states_fault hrest hown h _ none
  | arguments f earlier later site => exact states_proceed hrest hown h _ _ _ _
  | guard condition body later place =>
      simp only [Machine.receive, Machine.branch]
      split
      · exact states_evaluate hrest hown h body
      · exact states_choose hrest hown h later place
      · exact states_fault hrest hown h _ (some condition)
  | located span => exact states_value hrest hown h v
  | leave saved =>
      obtain ⟨outer, houter, hleft⟩ := interpreters_leave hrest h (Nat.succ.inj hown) saved
      exact states_value hrest houter hleft v

/-- An error goes past the same work with both callers. -/
theorem states_unwind {p : Machine.Pending}
    (hown : own.length + 1 = (Machine.saves (p :: rest)).length) {e e' : EvalError}
    (he : c.Errors e e') :
    c.States (Machine.unwind e p rest i) (Machine.unwind e' p rest' j) := by
  cases p with
  | located span => exact states_errors hrest hown h (he.orSpan span)
  | leave saved =>
      obtain ⟨outer, houter, hleft⟩ := interpreters_leave hrest h (Nat.succ.inj hown) saved
      exact states_errors hrest houter hleft (h.errors_attach he)
  | _ => exact states_errors hrest hown h he

end Arrivals

variable (c) in
/-- All that is left to do in both calls is to put back the bindings of the callers. -/
inductive Returning : Machine.State → Machine.State → Prop
  | value (v : Value) (i j : Interpreter) :
      Returning ⟨.deliver (.ok v), [.leave c.locals], i⟩ ⟨.deliver (.ok v), [.leave c.locals'], j⟩
  | error {e e' : EvalError} (he : c.Errors e e') {own : List Frame} {i j : Interpreter}
      (h : c.Interpreters own i j) :
      Returning ⟨.deliver (.error e), [.leave c.locals], i⟩
        ⟨.deliver (.error e'), [.leave c.locals'], j⟩

/-- Until they return, the two calls take the same steps. -/
theorem states_step {s t : Machine.State} (h : c.States s t) :
    (∃ u u', Machine.step s = .next u ∧ Machine.step t = .next u' ∧ c.States u u') ∨
      c.Returning s t := by
  obtain ⟨control, pending, i⟩ := s
  obtain ⟨control', pending', j⟩ := t
  obtain ⟨hcontrol, hpending, own, hown, h⟩ := h
  simp only at hcontrol hpending hown h
  cases hcontrol with
  | same hworks =>
      cases control with
      | evaluate e =>
          exact .inl ⟨_, _, rfl, rfl, states_enter (.cons (.located e.span) hpending) hown h e⟩
      | choose clauses place =>
          cases clauses with
          | nil => exact .inl ⟨_, _, rfl, rfl, states_fault hpending hown h _ (some place)⟩
          | cons clause later =>
              cases clause with
              | guarded condition body span =>
                  exact .inl ⟨_, _, rfl, rfl, states_awaiting hpending hown h condition rfl⟩
              | catchAll body span =>
                  exact .inl ⟨_, _, rfl, rfl, states_evaluate hpending hown h body⟩
      | invoke f args site => exact .inl ⟨_, _, rfl, rfl, states_call hpending hown h f args site⟩
      | deliver outcome =>
          cases outcome with
          | error e => exact absurd ⟨e, rfl⟩ hworks
          | ok v =>
              cases hpending with
              | last => exact .inr (.value v i j)
              | cons p hrest =>
                  exact .inl ⟨_, _, rfl, rfl, states_receive hrest h hown v⟩
  | errors he =>
      cases hpending with
      | last => exact .inr (.error he h)
      | cons p hrest => exact .inl ⟨_, _, rfl, rfl, states_unwind hrest h hown he⟩

/-- The two calls have the same value, or fail for the same reason in the same place, and show the
same calls over those of the callers. -/
theorem run_states {s t : Machine.State} (h : c.States s t) :
    (∃ v, (Machine.run s).1 = .ok v ∧ (Machine.run t).1 = .ok v) ∨
      ∃ cause span own,
        (Machine.run s).1 = .error ⟨cause, span, Backtrace.ofCalls? (c.calls own)⟩ ∧
        (Machine.run t).1 = .error ⟨cause, span, Backtrace.ofCalls? (c.calls' own)⟩ := by
  have hends := Machine.ends s
  induction hends generalizing t with
  | intro s _ ih =>
      rcases states_step h with ⟨u, u', hs, ht, hnext⟩ | hreturning
      · rw [Machine.run_of_next hs, Machine.run_of_next ht]
        exact ih u hs hnext
      · -- The bindings of the caller are put back in one step, and then nothing is pending.
        cases hreturning with
        | value v i j =>
            refine .inl ⟨v, ?_, ?_⟩
            · rw [Machine.run_of_next rfl, Machine.receive, Machine.run_of_done rfl]
            · rw [Machine.run_of_next rfl, Machine.receive, Machine.run_of_done rfl]
        | error he hinterpreters =>
            obtain ⟨cause, span, own, hi, hj⟩ := hinterpreters.attach he
            refine .inr ⟨cause, span, own, ?_, ?_⟩
            · rw [Machine.run_of_next rfl, Machine.unwind, Machine.run_of_done rfl, hi]
            · rw [Machine.run_of_next rfl, Machine.unwind, Machine.run_of_done rfl, hj]

def ofInterpreters {i j : Interpreter} (hdepth : j.stack.depth = i.stack.depth) (call : Frame) :
    Callers where
  call := call
  frames := i.stack.frames
  frames' := j.stack.frames
  locals := i.env.locals
  locals' := j.env.locals
  depth := by rw [← i.stack.depth_eq, ← j.stack.depth_eq, hdepth]

/-- The two calls begin alike: the body sees the arguments and the globals. -/
theorem states_body {i j : Interpreter} (hglobals : j.globals = i.globals)
    (hlimit : j.limit = i.limit) (hdepth : j.stack.depth = i.stack.depth) {frame : Frame}
    {stack stack' : CallStack} (push : i.stack.push? frame = some stack)
    (push' : j.stack.push? frame = some stack') (clauses : List Clause) (place : Span)
    (locals : Scope) :
    (ofInterpreters hdepth frame).States
      ⟨.choose clauses place, [.leave i.env.locals], ⟨i.env.withLocals (some locals), stack⟩⟩
      ⟨.choose clauses place, [.leave j.env.locals], ⟨j.env.withLocals (some locals), stack'⟩⟩ := by
  have henv : j.env.withLocals (some locals) = i.env.withLocals (some locals) :=
    congrArg (Environment.mk · (some locals)) hglobals
  have hstack : stack'.limit = stack.limit :=
    (CallStack.limit_push? push').trans (hlimit.trans (CallStack.limit_push? push).symm)
  exact ⟨.same (Machine.not_fails_choose _ _), .last, [], rfl, henv, hstack,
    CallStack.frames_push? push, CallStack.frames_push? push'⟩

end Callers

namespace Interpreter

variable {i j : Interpreter}

/-- No closures and no dynamic scoping: a call is independent of the bindings of its caller and of
the calls that are active there. With the same globals and the same room a function has the same
value for the same arguments, or fails with the same cause in the same place. A call with the wrong
number of arguments shows no calls, and one that finds no room those that were active before. From
the body the errors show the same calls, those that were made in it and the call itself, over the
calls that were active before. -/
theorem call_independent (hglobals : j.globals = i.globals) (hlimit : j.limit = i.limit)
    (hdepth : j.stack.depth = i.stack.depth) (f : FunctionValue) (args : List Value)
    (site : Option Span) :
    (∃ v, (i.call f args site).1 = .ok v ∧ (j.call f args site).1 = .ok v) ∨
      ∃ e e', (i.call f args site).1 = .error e ∧ (j.call f args site).1 = .error e' ∧
        e'.cause = e.cause ∧ e'.span = e.span ∧
        ((args.length ≠ f.arity ∧ e.backtrace = none ∧ e'.backtrace = none) ∨
          (i.stack.capacity ≤ i.stack.depth ∧
            e.backtrace = Backtrace.ofCalls? i.stack.frames ∧
            e'.backtrace = Backtrace.ofCalls? j.stack.frames) ∨
          ∃ own, e.backtrace = Backtrace.ofCalls? (own ++ ⟨f.name, site⟩ :: i.stack.frames) ∧
            e'.backtrace = Backtrace.ofCalls? (own ++ ⟨f.name, site⟩ :: j.stack.frames)) := by
  have hi : i.call f args site = Machine.run (Machine.call f args site [] i) :=
    Machine.run_of_next rfl
  have hj : j.call f args site = Machine.run (Machine.call f args site [] j) :=
    Machine.run_of_next rfl
  rw [hi, hj]
  by_cases harity : args.length = f.arity
  · rcases CallStack.push?_both hlimit hdepth ⟨f.name, site⟩ with
      ⟨full, full'⟩ | ⟨stack, stack', push, push'⟩
    · rw [Machine.call_noRoom harity full, Machine.call_noRoom harity full',
        Machine.run_of_done rfl, Machine.run_of_done rfl]
      have hcalls : i.stack.capacity ≤ i.stack.depth ∧
          (i.stack.attach i.stack.overflow).backtrace = Backtrace.ofCalls? i.stack.frames ∧
          (j.stack.attach j.stack.overflow).backtrace = Backtrace.ofCalls? j.stack.frames :=
        ⟨CallStack.full_of_push? full, i.stack.backtrace_attach _, j.stack.backtrace_attach _⟩
      refine .inr ⟨_, _, rfl, rfl, ?_, ?_, .inr (.inl hcalls)⟩
      · rw [CallStack.cause_attach, CallStack.cause_attach, CallStack.overflow, CallStack.overflow,
          CallStack.capacity_eq hlimit]
      · rw [CallStack.span_attach, CallStack.span_attach]
        rfl
    · rw [Machine.call_enters harity push, Machine.call_enters harity push']
      have hstates := Callers.states_body hglobals hlimit hdepth push push' f.body.clauses
        f.body.span (.ofList (f.params.zip args))
      rcases Callers.run_states hstates with hvalue | ⟨cause, span, own, he, he'⟩
      · exact .inl hvalue
      · exact .inr ⟨_, _, he, he', rfl, rfl, .inr (.inr ⟨own, rfl, rfl⟩)⟩
  · rw [Machine.call_arityMismatch harity, Machine.call_arityMismatch harity,
      Machine.run_of_done rfl, Machine.run_of_done rfl]
    exact .inr ⟨_, _, rfl, rfl, rfl, rfl, .inl ⟨harity, rfl, rfl⟩⟩

/-- A function without parameters that looks for an argument of its caller. -/
private def lookingOut : FunctionValue :=
  ⟨"inner", [], .always [] (.ident "x" (.point 3))⟩

/-- What one caller has bound stays unseen, as if the other had made the call. -/
theorem call_independent_lookingOut :
    let binding : Interpreter :=
      ⟨⟨.empty, some (.ofList [("x", .boolean true)])⟩,
        ⟨[⟨"outer", none⟩, ⟨"main", some (.point 7)⟩], some 3, 2, rfl⟩⟩
    let bare : Interpreter :=
      ⟨⟨.empty, none⟩, ⟨[⟨"other", some (.point 8)⟩, ⟨"main", none⟩], some 3, 2, rfl⟩⟩
    bare.globals = binding.globals ∧ bare.limit = binding.limit ∧
      bare.stack.depth = binding.stack.depth ∧
      ∃ e, (binding.call lookingOut [] (some (.point 5))).1 = .error e ∧
        e.cause = .undefinedVariable "x" ∧ e.span = some (.point 3) ∧
        e.backtrace = some
          ⟨[⟨"inner", some (.point 5)⟩, ⟨"outer", none⟩, ⟨"main", some (.point 7)⟩], 0⟩ := by
  intro binding bare
  have hglobals : binding.globals = bare.globals := rfl
  have hlimit : binding.limit = bare.limit := rfl
  have hdepth : binding.stack.depth = bare.stack.depth := rfl
  have hbare : (bare.call lookingOut [] (some (.point 5))).1 =
      .error ⟨.undefinedVariable "x", some (.point 3), some ⟨[⟨"inner", some (.point 5)⟩,
        ⟨"other", some (.point 8)⟩, ⟨"main", none⟩], 0⟩⟩ := by
    cbv
  refine ⟨hglobals.symm, hlimit.symm, hdepth.symm, ?_⟩
  have hroom : ¬ bare.stack.capacity ≤ bare.stack.depth := by decide
  rcases call_independent hglobals hlimit hdepth lookingOut [] (some (.point 5)) with
    ⟨v, hv, -⟩ | ⟨e, e', he, he', hcause, hspan, ⟨harity, -⟩ | ⟨full, -⟩ | ⟨own, hshown, hshown'⟩⟩
  · cases hv.symm.trans hbare
  · exact absurd rfl harity
  · exact absurd full hroom
  · cases he.symm.trans hbare
    -- What is shown of the known call leaves no room for calls that were made in it.
    have hown : own = [] := by
      cases own with
      | nil => rfl
      | cons frame own =>
          have hframes := congrArg (·.map (·.frames.length)) hshown
          simp [Backtrace.ofCalls?, CallStack.shown, bare] at hframes
          omega
    subst hown
    exact ⟨e', he', hcause, hspan, hshown'⟩

end Interpreter

end Clausal
