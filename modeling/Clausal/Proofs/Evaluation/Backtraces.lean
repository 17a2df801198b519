import Mathlib
import Clausal.Proofs.Evaluation.CallSites
import Clausal.Proofs.Evaluation.Completion

/-!
What a backtrace shows. A run is followed along with the calls that are under way: those whose body
has come to be evaluated and is not left yet. The stack holds exactly these, so an error that is
raised finds them there; on its way out the calls are left one after the other, and what the error
shows is settled by the first of them.
-/

namespace Clausal

namespace Backtrace

/-- What is shown of calls, the innermost first; nothing where there are none. -/
def ofCalls? : List Frame → Option Backtrace
  | [] => none
  | f :: calls =>
    some ⟨(f :: calls).take CallStack.shown, (f :: calls).length - CallStack.shown⟩

theorem ofCalls?_of_ne_nil {calls : List Frame} (h : calls ≠ []) :
    ofCalls? calls = some ⟨calls.take CallStack.shown, calls.length - CallStack.shown⟩ := by
  cases calls with
  | nil => contradiction
  | cons f calls => rfl

/-- What the calls show without the innermost matters only where they show nothing. -/
theorem ofCalls?_or_tail (calls : List Frame) :
    (ofCalls? calls).or (ofCalls? calls.tail) = ofCalls? calls := by
  cases calls with
  | nil => rfl
  | cons f calls => rfl

end Backtrace

namespace CallStack

/-- An error that has a backtrace keeps it, and another takes the calls that are open. -/
theorem attach_eq (s : CallStack) (e : EvalError) :
    s.attach e = ⟨e.cause, e.span, e.backtrace.or (Backtrace.ofCalls? s.frames)⟩ := by
  obtain ⟨frames, limit, depth, rfl⟩ := s
  obtain ⟨cause, span, backtrace⟩ := e
  cases frames with
  | nil => cases backtrace <;> rfl
  | cons f frames => cases backtrace <;> rfl

theorem backtrace_attach (s : CallStack) (e : EvalError) :
    (s.attach e).backtrace = e.backtrace.or (Backtrace.ofCalls? s.frames) := by
  rw [attach_eq]

/-- What an error shows when a call is left is what it shows after that. -/
theorem backtrace_attach_pop (s : CallStack) (e : EvalError) :
    (s.pop.attach (s.attach e)).backtrace = (s.attach e).backtrace := by
  rw [backtrace_attach, backtrace_attach, Option.or_assoc]
  exact congrArg e.backtrace.or (Backtrace.ofCalls?_or_tail s.frames)

/-- The place of an error does not bear on its backtrace. -/
theorem backtrace_attach_orSpan (s : CallStack) (e : EvalError) (span : Span) :
    (s.attach (e.orSpan span)).backtrace = (s.attach e).backtrace := by
  rw [backtrace_attach, backtrace_attach]
  rfl

end CallStack

namespace EvalError

/-- The error is raised on this stack: it has recorded no other calls than the active ones, and it
says that the stack is full only if it is. -/
structure ArisesOn (stack : CallStack) (e : EvalError) : Prop where
  calls : (stack.attach e).backtrace = Backtrace.ofCalls? stack.frames
  full : ∀ n, e.cause = .stackOverflow n → n = stack.capacity ∧ stack.capacity ≤ stack.depth

variable {stack : CallStack}

theorem arisesOn_ofCause {cause : Cause} (h : ∀ n, cause ≠ .stackOverflow n) :
    (ofCause cause).ArisesOn stack :=
  ⟨stack.backtrace_attach _, fun n hn => absurd hn (h n)⟩

theorem arisesOn_orSpan {cause : Cause} (h : ∀ n, cause ≠ .stackOverflow n) (span : Span) :
    ((ofCause cause).orSpan span).ArisesOn stack :=
  ⟨stack.backtrace_attach _, fun n hn => absurd hn (h n)⟩

/-- An overflow arises where the stack is full. -/
theorem arisesOn_overflow (h : stack.capacity ≤ stack.depth) :
    (stack.attach stack.overflow).ArisesOn stack := by
  refine ⟨?_, fun n hn => ?_⟩
  · rw [stack.backtrace_attach, stack.backtrace_attach, Option.or_assoc, Option.or_self]
    rfl
  · rw [stack.cause_attach] at hn
    exact ⟨(Cause.stackOverflow.inj hn).symm, h⟩

end EvalError

namespace Machine

/-- An error is on its way. -/
def Control.Fails (c : Control) : Prop := ∃ e, c = .deliver (.error e)

theorem not_fails_ok (v : Value) : ¬ (Control.deliver (.ok v)).Fails := by
  rintro ⟨e, ⟨⟩⟩

theorem not_fails_evaluate (e : Expr) : ¬ (Control.evaluate e).Fails := by
  rintro ⟨e', ⟨⟩⟩

theorem not_fails_choose (clauses : List Clause) (place : Span) :
    ¬ (Control.choose clauses place).Fails := by
  rintro ⟨e, ⟨⟩⟩

theorem not_fails_invoke (f : FunctionValue) (args : List Value) (site : Option Span) :
    ¬ (Control.invoke f args site).Fails := by
  rintro ⟨e, ⟨⟩⟩

/-- What one step means for the calls that are under way, and where an error comes from. -/
inductive Turn (t u : State) : Prop
  | stays (error : ∀ e, u.control = .deliver (.error e) →
        t.control.Fails ∨ e.ArisesOn t.interpreter.stack)
      (same : u.interpreter = t.interpreter) (calls : saves u.pending = saves t.pending)
  | enters (f : FunctionValue) (args : List Value) (site : Option Span) (saved : Option Scope)
      (invoked : t.control = .invoke f args site)
      (body : u.control = .choose f.body.clauses f.body.span)
      (calls : saves u.pending = saved :: saves t.pending)
  | leaves (saved : Option Scope) (pops : t.Pops) (outcome : u.control.Fails → t.control.Fails)
      (calls : saves t.pending = saved :: saves u.pending)

section Turns

variable {t : State}

theorem turn_value {u : State} (h : ¬ u.control.Fails) (same : u.interpreter = t.interpreter)
    (calls : saves u.pending = saves t.pending) : Turn t u :=
  .stays (fun e he => absurd ⟨e, he⟩ h) same calls

/-- An error arises on the stack of the state before it. -/
theorem turn_raise {e : EvalError} {rest : List Pending} (h : e.ArisesOn t.interpreter.stack)
    (calls : saves rest = saves t.pending) :
    Turn t ⟨.deliver (.error e), rest, t.interpreter⟩ := by
  refine .stays (fun e' he' => .inr ?_) rfl calls
  cases he'
  exact h

theorem turn_enter (e : Expr) : Turn t (enter e (.located e.span :: t.pending) t.interpreter) := by
  unfold enter
  split
  case h_6 name _ =>
    split
    · exact turn_value (not_fails_ok _) rfl rfl
    · exact turn_raise (EvalError.arisesOn_ofCause (by rintro n ⟨⟩)) rfl
  all_goals first
    | exact turn_value (not_fails_ok _) rfl rfl
    | exact turn_value (not_fails_evaluate _) rfl rfl

/-- A call is entered, or it is refused where it was made. -/
theorem turn_call {f : FunctionValue} {args : List Value} {site : Option Span}
    (invoked : t.control = .invoke f args site) :
    Turn t (call f args site t.pending t.interpreter) := by
  unfold call
  split
  · split
    · exact .enters f args site _ invoked rfl rfl
    · next full =>
      exact turn_raise (EvalError.arisesOn_overflow (CallStack.full_of_push? full)) rfl
  · exact turn_raise (EvalError.arisesOn_ofCause (by rintro n ⟨⟩)) rfl

theorem turn_proceed (f : FunctionValue) (earlier : List Value) (later : List Expr) (site : Span)
    {rest : List Pending} (calls : saves rest = saves t.pending) :
    Turn t (proceed f earlier later site rest t.interpreter) := by
  cases later with
  | nil => exact turn_value (not_fails_invoke _ _ _) rfl calls
  | cons e es => exact turn_value (not_fails_evaluate _) rfl calls

theorem turn_receive {v : Value} {p : Pending} {rest : List Pending}
    (control : t.control = .deliver (.ok v)) (pending : t.pending = p :: rest) :
    Turn t (receive v p rest t.interpreter) := by
  have calls : saves t.pending = saves (p :: rest) := congrArg saves pending
  cases p with
  | rightOperand op right => exact turn_value (not_fails_evaluate _) rfl calls.symm
  | combine op left =>
      simp only [receive, BinaryOp.apply]
      split
      · exact turn_value (not_fails_ok _) rfl calls.symm
      · exact turn_raise (EvalError.arisesOn_ofCause (by rintro n ⟨⟩)) calls.symm
  | operate op =>
      simp only [receive, UnaryOp.apply]
      split
      · exact turn_value (not_fails_ok _) rfl calls.symm
      · exact turn_raise (EvalError.arisesOn_ofCause (by rintro n ⟨⟩)) calls.symm
  | elements earlier later =>
      cases later with
      | nil => exact turn_value (not_fails_ok _) rfl calls.symm
      | cons e es => exact turn_value (not_fails_evaluate _) rfl calls.symm
  | callee args site =>
      simp only [receive, applyTo]
      split
      · exact turn_proceed _ _ _ _ calls.symm
      · exact turn_raise (EvalError.arisesOn_ofCause (by rintro n ⟨⟩)) calls.symm
  | arguments f earlier later site => exact turn_proceed _ _ _ _ calls.symm
  | guard condition body later place =>
      simp only [receive, branch]
      split
      · exact turn_value (not_fails_evaluate _) rfl calls.symm
      · exact turn_value (not_fails_choose _ _) rfl calls.symm
      · exact turn_raise (EvalError.arisesOn_orSpan (by rintro n ⟨⟩) _) calls.symm
  | located span => exact turn_value (not_fails_ok _) rfl calls.symm
  | leave saved =>
      exact .leaves saved ⟨_, _, _, control, pending⟩ (absurd · (not_fails_ok v)) calls

/-- An error that goes past a call has been given its backtrace by then. -/
theorem turn_unwind {e : EvalError} {p : Pending} {rest : List Pending}
    (control : t.control = .deliver (.error e)) (pending : t.pending = p :: rest) :
    Turn t (unwind e p rest t.interpreter) := by
  have calls : saves t.pending = saves (p :: rest) := congrArg saves pending
  have fails : t.control.Fails := ⟨e, control⟩
  cases p with
  | leave saved => exact .leaves saved ⟨_, _, _, control, pending⟩ (fun _ => fails) calls
  | _ => exact .stays (fun _ _ => .inl fails) rfl calls.symm

end Turns

/-- Every step is a turn of one of these kinds. -/
theorem turn_of_step {t u : State} (h : step t = .next u) : Turn t u := by
  unfold step at h
  split at h
  · cases h
    exact turn_enter _
  · cases h
    exact turn_raise (EvalError.arisesOn_orSpan (by rintro n ⟨⟩) _) rfl
  · cases h
    exact turn_value (not_fails_evaluate _) rfl rfl
  · cases h
    exact turn_value (not_fails_evaluate _) rfl rfl
  · next invoked =>
    cases h
    exact turn_call invoked
  · next control =>
    split at h
    · cases h
    · next pending =>
      split at h
      · cases h
        exact turn_receive control pending
      · cases h
        exact turn_unwind control pending

/-- Going past one piece of work changes neither the cause nor the backtrace an error will show. -/
theorem unwind_shows (e : EvalError) (p : Pending) (rest : List Pending) (i : Interpreter) :
    ∃ e' j, unwind e p rest i = ⟨.deliver (.error e'), rest, j⟩ ∧ e'.cause = e.cause ∧
      (j.stack.attach e').backtrace = (i.stack.attach e).backtrace := by
  cases p with
  | located span => exact ⟨_, _, rfl, rfl, i.stack.backtrace_attach_orSpan e span⟩
  | leave saved => exact ⟨_, _, rfl, i.stack.cause_attach e, i.stack.backtrace_attach_pop e⟩
  | _ => exact ⟨_, _, rfl, rfl, rfl⟩

/-- On its way out an error keeps its cause, and what it shows where it meets the stack does not
change while calls are left. -/
theorem run_error_shows (e : EvalError) (pending : List Pending) (i : Interpreter) :
    ∃ e' j, run ⟨.deliver (.error e), pending, i⟩ = (.error e', j) ∧ e'.cause = e.cause ∧
      (j.stack.attach e').backtrace = (i.stack.attach e).backtrace := by
  induction pending generalizing e i with
  | nil => exact ⟨e, i, run_of_done rfl, rfl, rfl⟩
  | cons p rest ih =>
      have hstep : step ⟨.deliver (.error e), p :: rest, i⟩ = .next (unwind e p rest i) := rfl
      obtain ⟨e', j, hunwind, hcause, hshows⟩ := unwind_shows e p rest i
      obtain ⟨e'', k, hrun, hcause', hshows'⟩ := ih e' j
      refine ⟨e'', k, ?_, hcause'.trans hcause, hshows'.trans hshows⟩
      rw [run_of_next hstep, hunwind, hrun]

/-- The next step raises the error: there is none before it. -/
structure State.Raises (t : State) (e : EvalError) : Prop where
  before : ¬ t.control.Fails
  after : ∃ u, step t = .next u ∧ u.control = .deliver (.error e)

/-- Raising an error changes neither bindings nor active calls. -/
theorem State.Raises.arises {t : State} {e : EvalError} (h : t.Raises e) :
    e.ArisesOn t.interpreter.stack ∧
      ∃ pending, step t = .next ⟨.deliver (.error e), pending, t.interpreter⟩ := by
  obtain ⟨before, ⟨control, pending, i⟩, next, after⟩ := h
  obtain rfl : control = .deliver (.error e) := after
  cases turn_of_step next with
  | stays error same calls =>
      obtain rfl : i = t.interpreter := same
      exact ⟨(error e rfl).resolve_left before, pending, next⟩
  | enters f args site saved invoked body calls => cases body
  | leaves saved pops outcome calls => exact absurd (outcome ⟨e, rfl⟩) before

/-- An error that is reached was raised somewhere on the way. -/
theorem Reaches.exists_raises {s t : State} (h : Reaches s t) (hs : ¬ s.control.Fails)
    {e : EvalError} (ht : t.control = .deliver (.error e)) :
    ∃ m e', Reaches s m ∧ m.Raises e' := by
  induction h generalizing e with
  | start => exact absurd ⟨e, ht⟩ hs
  | @step t u before next ih =>
      by_cases hfails : t.control.Fails
      · obtain ⟨e', he'⟩ := hfails
        exact ih he'
      · exact ⟨t, e, before, hfails, u, next, ht⟩

/-- The machine has got to the last state, and these calls are under way, the innermost first.
A call expression leads to a call of a function, whose body comes to be evaluated; the call is under
way until the body is left. -/
inductive Underway (s : State) : List Frame → State → Prop
  | start : Underway s [] s
  | enters {calls : List Frame} {t u : State} {f : FunctionValue} {args : List Value} {site : Span}
      {after : List Pending} (h : Underway s calls t) (expression : Called s t site after)
      (invoked : t.control = .invoke f args (some site)) (made : t.pending = .located site :: after)
      (next : step t = .next u) (body : u.control = .choose f.body.clauses f.body.span) :
      Underway s (⟨f.name, some site⟩ :: calls) u
  | leaves {frame : Frame} {calls : List Frame} {t u : State} (h : Underway s (frame :: calls) t)
      (pops : t.Pops) (next : step t = .next u) : Underway s calls u
  | stays {calls : List Frame} {t u : State} (h : Underway s calls t) (next : step t = .next u)
      (inside : saves u.pending = saves t.pending) : Underway s calls u

/-- The body of a called function comes to be evaluated with the call on the stack. -/
theorem push_of_body {t u : State} {f : FunctionValue} {args : List Value} {site : Option Span}
    (invoked : t.control = .invoke f args site) (next : step t = .next u)
    (body : u.control = .choose f.body.clauses f.body.span) :
    t.interpreter.stack.push? ⟨f.name, site⟩ = some u.interpreter.stack := by
  obtain ⟨control, pending, i⟩ := t
  obtain rfl : control = .invoke f args site := invoked
  cases next
  unfold call at body ⊢
  split
  · next fits =>
    rw [if_pos fits] at body
    split
    · next push => exact push
    · next full =>
      rw [full] at body
      cases body
  · next misfits =>
    rw [if_neg misfits] at body
    cases body

theorem State.Pops.stack {t u : State} (pops : t.Pops) (next : step t = .next u) :
    u.interpreter.stack = t.interpreter.stack.pop := by
  obtain ⟨control, pending, i⟩ := t
  obtain ⟨outcome, saved, rest, hcontrol, hpending⟩ := pops
  obtain rfl : control = .deliver outcome := hcontrol
  obtain rfl : pending = .leave saved :: rest := hpending
  cases outcome <;> cases next <;> rfl

theorem Underway.reaches {s t : State} {calls : List Frame} (h : Underway s calls t) :
    Reaches s t := by
  induction h with
  | start => exact .start
  | enters _ _ _ _ next _ ih => exact ih.step next
  | leaves _ _ next ih => exact ih.step next
  | stays _ next _ ih => exact ih.step next

/-- The calls that are under way are on the stack, over those that were active before. -/
theorem Underway.frames {s t : State} {calls : List Frame} (h : Underway s calls t) :
    t.interpreter.stack.frames = calls ++ s.interpreter.stack.frames := by
  induction h with
  | start => rfl
  | enters _ _ invoked _ next body ih =>
      rw [CallStack.frames_push? (push_of_body invoked next body), ih]
      rfl
  | leaves _ pops next ih =>
      rw [pops.stack next]
      exact congrArg List.tail ih
  | stays _ next inside ih =>
      -- A call that is entered or left changes the number of calls that are still to be left.
      cases turn_of_step next with
      | stays error same calls => rw [same, ih]
      | enters f args site saved invoked body calls =>
          have hlength := congrArg List.length (calls.symm.trans inside)
          simp at hlength
      | leaves saved pops outcome calls =>
          have hlength := congrArg List.length (inside.trans calls)
          simp at hlength

/-- Wherever an evaluation gets to, some calls are under way. -/
theorem Reaches.exists_underway {e : Expr} {i : Interpreter} {t : State}
    (h : Reaches ⟨.evaluate e, [], i⟩ t) :
    ∃ calls, Underway ⟨.evaluate e, [], i⟩ calls t ∧ calls.length = (saves t.pending).length := by
  -- As many calls are under way as are still to be left, so there is one when one is left.
  induction h with
  | start => exact ⟨[], .start, rfl⟩
  | @step t u before next ih =>
      obtain ⟨calls, hcalls, hlength⟩ := ih
      cases turn_of_step next with
      | stays error same inside =>
          exact ⟨calls, .stays hcalls next inside, hlength.trans (congrArg _ inside.symm)⟩
      | enters f args site? saved invoked body more =>
          obtain ⟨site, after, rfl, made, expression⟩ := before.exists_called f args site? invoked
          refine ⟨_, .enters hcalls expression invoked made next body, ?_⟩
          rw [more, List.length_cons, List.length_cons, hlength]
      | leaves saved pops outcome fewer =>
          rw [fewer, List.length_cons] at hlength
          cases calls with
          | nil => contradiction
          | cons frame calls => exact ⟨calls, .leaves hcalls pops next, Nat.succ.inj hlength⟩

/-- An error of this cause is raised in the run from this state, and these calls are under way when
it is, the innermost first. -/
def State.RaisesAmid (s : State) (cause : EvalError.Cause) (calls : List Frame) : Prop :=
  ∃ t e, Underway s calls t ∧ t.Raises e ∧ e.cause = cause

/-- From where an error is raised, the run ends with its cause and the calls that were open
there. -/
theorem State.Raises.run {t : State} {e : EvalError} (h : t.Raises e) :
    ∃ e' j, run t = (.error e', j) ∧ e'.cause = e.cause ∧
      (j.stack.attach e').backtrace = Backtrace.ofCalls? t.interpreter.stack.frames := by
  obtain ⟨harises, pending, next⟩ := h.arises
  obtain ⟨e', j, hrun, hcause, hshows⟩ := run_error_shows e pending t.interpreter
  exact ⟨e', j, (run_of_next next).trans hrun, hcause, hshows.trans harises.calls⟩

/-- The run fails for the cause for which the error was raised, and the error shows the calls that
were under way then. -/
theorem State.RaisesAmid.run {s : State} {cause : EvalError.Cause} {calls : List Frame}
    (h : s.RaisesAmid cause calls) :
    ∃ e j, run s = (.error e, j) ∧ e.cause = cause ∧
      (j.stack.attach e).backtrace =
        Backtrace.ofCalls? (calls ++ s.interpreter.stack.frames) := by
  obtain ⟨t, e, hcalls, hraises, rfl⟩ := h
  obtain ⟨e', j, hrun, hcause, hshows⟩ := hraises.run
  exact ⟨e', j, hcalls.reaches.run_eq.symm.trans hrun, hcause, hcalls.frames ▸ hshows⟩

/-- An exceeded limit is the number of the active calls: the stack is full, and holds no more. -/
theorem State.RaisesAmid.full {s : State} {n : Nat} {calls : List Frame}
    (h : s.RaisesAmid (.stackOverflow n) calls) (hs : s.Fits) :
    (calls ++ s.interpreter.stack.frames).length = n := by
  obtain ⟨t, e, hcalls, hraises, hcause⟩ := h
  obtain ⟨rfl, hfull⟩ := hraises.arises.1.full n hcause
  have hfits : t.interpreter.stack.depth ≤ t.interpreter.stack.capacity :=
    (hcalls.reaches.fits hs).1
  rw [← hcalls.frames, ← t.interpreter.stack.depth_eq]
  exact Nat.le_antisymm hfits hfull

/-- An expression that ends in an error raised it amid some calls. -/
theorem exists_raisesAmid {x : Expr} {i j : Interpreter} {e : EvalError}
    (h : run ⟨.evaluate x, [], i⟩ = (.error e, j)) :
    ∃ calls, State.RaisesAmid ⟨.evaluate x, [], i⟩ e.cause calls := by
  obtain ⟨t, hreaches, hdone⟩ := completes_run ⟨.evaluate x, [], i⟩
  rw [h] at hdone
  obtain rfl := eq_of_step_done hdone
  obtain ⟨m, e', hm, hraises⟩ := hreaches.exists_raises (not_fails_evaluate x) rfl
  obtain ⟨calls, hcalls, -⟩ := hm.exists_underway
  obtain ⟨e'', k, hrun, hcause, -⟩ := hraises.run
  cases (hrun.symm.trans hm.run_eq).trans h
  exact ⟨calls, m, e', hcalls, hraises, hcause.symm⟩

end Machine

/-- The error is of this cause and shows these calls; an exceeded limit is their number. -/
structure EvalError.Shows (cause : EvalError.Cause) (calls : List Frame) (e : EvalError) :
    Prop where
  raised : e.cause = cause
  shown : e.backtrace = Backtrace.ofCalls? calls
  exceeded : ∀ n, cause = .stackOverflow n → calls.length = n

namespace Interpreter

/-- An error of this cause is raised when the statements are run in order, and these calls are
under way when it is, the innermost first. -/
inductive RaisesAmid : Interpreter → List Statement → EvalError.Cause → List Frame → Prop
  | define {i : Interpreter} (typeName name : String) {init : Expr} (span : Span)
      (ss : List Statement) {cause : EvalError.Cause} {calls : List Frame}
      (h : Machine.State.RaisesAmid ⟨.evaluate init, [], i⟩ cause calls) :
      RaisesAmid i (.define typeName name init span :: ss) cause calls
  | expression {i : Interpreter} {e : Expr} (span : Span) (ss : List Statement)
      {cause : EvalError.Cause} {calls : List Frame}
      (h : Machine.State.RaisesAmid ⟨.evaluate e, [], i⟩ cause calls) :
      RaisesAmid i (.expression e span :: ss) cause calls
  | later {i j : Interpreter} {s : Statement} {ss : List Statement} {v : Value}
      {cause : EvalError.Cause} {calls : List Frame} (before : i.runStatement s = (.ok v, j))
      (h : RaisesAmid j ss cause calls) : RaisesAmid i (s :: ss) cause calls

variable {i : Interpreter}

theorem runStatement_define_error (typeName name : String) {init : Expr} (span : Span)
    {e : EvalError} {j : Interpreter} :
    i.runStatement (.define typeName name init span) = (.error e, j) ↔
      i.evaluate init = (.error e, j) := by
  rw [runStatement]
  obtain ⟨outcome, k⟩ := i.evaluate init
  cases outcome with
  | ok v => constructor <;> rintro ⟨⟩
  | error e' => exact Iff.rfl

/-- A statement that fails is one whose expression fails. -/
theorem exists_raisesAmid_of_runStatement {s : Statement} {e : EvalError} {j : Interpreter}
    (h : i.runStatement s = (.error e, j)) (ss : List Statement) :
    ∃ calls, RaisesAmid i (s :: ss) e.cause calls := by
  cases s with
  | define typeName name init span =>
      have hinit := (runStatement_define_error typeName name span).mp h
      obtain ⟨calls, hcalls⟩ := Machine.exists_raisesAmid hinit
      exact ⟨calls, .define typeName name span ss hcalls⟩
  | function d span => cases h
  | expression x span =>
      obtain ⟨calls, hcalls⟩ := Machine.exists_raisesAmid h
      exact ⟨calls, .expression span ss hcalls⟩
  | comment text span => cases h

/-- So did one of the statements of a program that ends in an error. -/
theorem exists_raisesAmid_of_runFrom {last : Value} {ss : List Statement} {e : EvalError}
    {k : Interpreter} (h : i.runFrom last ss = (.error e, k)) :
    ∃ calls, RaisesAmid i ss e.cause calls := by
  induction ss generalizing i last with
  | nil => cases h
  | cons s ss ih =>
      cases hs : i.runStatement s with
      | mk outcome j =>
          cases outcome with
          | ok v =>
              rw [runFrom_cons_ok hs] at h
              obtain ⟨calls, hcalls⟩ := ih h
              exact ⟨calls, .later hs hcalls⟩
          | error e' =>
              cases (runFrom_cons_error hs last ss).symm.trans h
              exact exists_raisesAmid_of_runStatement hs ss

/-- Where no call is active at first, an expression that fails shows the calls under way. -/
theorem evaluate_shows {e : Expr} {cause : EvalError.Cause} {calls : List Frame}
    (h : Machine.State.RaisesAmid ⟨.evaluate e, [], i⟩ cause calls) (hi : i.stack.frames = []) :
    ∃ x, i.evaluate e = (.error x, i) ∧ x.Shows cause calls := by
  obtain ⟨x, j, hrun, hcause, hshows⟩ := h.run
  obtain rfl : j = i := by
    have hsame := evaluate_interpreter i e
    rwa [evaluate, hrun] at hsame
  have hfits : Machine.State.Fits ⟨.evaluate e, [], j⟩ := by
    rw [Machine.State.Fits, j.stack.depth_eq, hi]
    exact Nat.zero_le _
  refine ⟨x, hrun, hcause, ?_, fun n hn => ?_⟩
  · rw [CallStack.backtrace_attach, hi, List.append_nil] at hshows
    exact (Option.or_none ..).symm.trans hshows
  · subst hn
    have hfull := h.full hfits
    rwa [hi, List.append_nil] at hfull

/-- A program that raises an error amid some calls ends with it, and shows these calls. -/
theorem RaisesAmid.runFrom {ss : List Statement} {cause : EvalError.Cause} {calls : List Frame}
    (h : RaisesAmid i ss cause calls) (hi : i.stack.frames = []) (last : Value) :
    ∃ e k, i.runFrom last ss = (.error e, k) ∧ e.Shows cause calls := by
  induction h generalizing last with
  | define typeName name span ss h =>
      obtain ⟨e, hevaluate, hshows⟩ := evaluate_shows h hi
      have hs := (runStatement_define_error typeName name span).mpr hevaluate
      exact ⟨e, _, runFrom_cons_error hs last ss, hshows⟩
  | expression span ss h =>
      obtain ⟨e, hevaluate, hshows⟩ := evaluate_shows h hi
      have hs : runStatement _ (.expression _ span) = (.error e, _) := hevaluate
      exact ⟨e, _, runFrom_cons_error hs last ss, hshows⟩
  | later before h ih =>
      have hstack := stack_of_runStatement before
      obtain ⟨e, k, hrun, hshows⟩ := ih (hstack ▸ hi) _
      exact ⟨e, k, (runFrom_cons_ok before last _).trans hrun, hshows⟩

/-- Backtraces are exact. When a program fails on a fresh interpreter, the error was raised amid
certain calls: those whose bodies were being evaluated. Without any there is no backtrace; else it
shows the innermost 16 of them, the most recent one first, each with the name of its function and
the place of its call expression, and counts the others. An exceeded limit is the number of these
calls, without the one that found no room. -/
theorem runProgram_backtrace {limit : Option Nat} {p : Program} {e : EvalError} {i : Interpreter}
    (h : (new limit).runProgram p = (.error e, i)) :
    (∃ calls, RaisesAmid (new limit) p.statements e.cause calls) ∧
    ∀ cause calls, RaisesAmid (new limit) p.statements cause calls →
      e.cause = cause ∧ (calls = [] → e.backtrace = none) ∧
      (calls ≠ [] → e.backtrace =
        some ⟨calls.take (min 16 calls.length), calls.length - min 16 calls.length⟩) ∧
      ∀ n, cause = .stackOverflow n → calls.length = n := by
  refine ⟨exists_raisesAmid_of_runFrom h, fun cause calls hraises => ?_⟩
  obtain ⟨e', k, hrun, hshows⟩ := hraises.runFrom rfl .null
  cases hrun.symm.trans h
  refine ⟨hshows.raised, fun hnone => ?_, fun hsome => ?_, hshows.exceeded⟩
  · rw [hshows.shown, hnone]
    rfl
  · rw [hshows.shown, Backtrace.ofCalls?_of_ne_nil hsome]
    have htake : calls.take (min 16 calls.length) = calls.take CallStack.shown := by
      rw [List.take_eq_take_iff, Nat.min_assoc, Nat.min_self]
      rfl
    have hcount : calls.length - min 16 calls.length = calls.length - CallStack.shown := by
      rw [CallStack.shown]
      omega
    rw [htake, hcount]

/-- A function that calls itself, and a call of it. -/
private def endless : Program :=
  ⟨[.function ⟨"f", [], "number", [], .always [] (.call (.ident "f" (.point 0)) [] (.point 1))⟩
      (.point 0),
    .expression (.call (.ident "f" (.point 2)) [] (.point 3)) (.point 2)]⟩

theorem runProgram_backtrace_endless :
    ∃ e i, (new (some 18)).runProgram endless = (.error e, i) ∧
      ∃ calls, RaisesAmid (new (some 18)) endless.statements (.stackOverflow 18) calls ∧
        calls.length = 18 ∧ e.backtrace = some ⟨calls.take 16, 2⟩ := by
  let inner : Frame := ⟨"f", some (.point 1)⟩
  let e : EvalError :=
    ⟨.stackOverflow 18, some (.point 1), some ⟨List.replicate 16 inner, 2⟩⟩
  have hrun : ∃ i, (new (some 18)).runProgram endless = (.error e, i) := ⟨_, by cbv⟩
  obtain ⟨i, hrun⟩ := hrun
  obtain ⟨⟨calls, hraises⟩, hshows⟩ := runProgram_backtrace hrun
  obtain ⟨-, -, hbacktrace, hlength⟩ := hshows _ calls hraises
  have hcalls : calls.length = 18 := hlength 18 rfl
  refine ⟨e, i, hrun, calls, hraises, hcalls, ?_⟩
  rw [hbacktrace (by rintro rfl; contradiction), hcalls]
  rfl

end Interpreter

end Clausal
