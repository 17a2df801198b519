import Mathlib
import Clausal.Proofs.Evaluation.Purity
import Clausal.Session.Config

/-!
The recursion limit cuts runs short and does nothing else. Two interpreters that differ in their
limits alone take the same steps, side by side, until the one with less room has no room for a
call. From there on its run fails: no pending work turns an error into anything else, and what
names the exceeded limit is the error of the call that found no room.
-/

namespace Clausal

def Outcome.Overflows (outcome : Outcome) : Prop :=
  ∃ e limit, outcome = .error e ∧ e.cause = .stackOverflow limit

theorem Outcome.not_overflows_ok (v : Value) : ¬ Outcome.Overflows (.ok v) := by
  rintro ⟨e, limit, h, -⟩
  cases h

namespace Interpreter

/-- The same bindings and active calls, and at least as much room for calls. -/
structure Roomier (i j : Interpreter) : Prop where
  env : j.env = i.env
  frames : j.stack.frames = i.stack.frames
  room : i.stack.capacity ≤ j.stack.capacity

namespace Roomier

variable {i j : Interpreter}

theorem depth (h : i.Roomier j) : j.stack.depth = i.stack.depth := by
  rw [j.stack.depth_eq, i.stack.depth_eq, h.frames]

/-- What an error shows of the active calls does not depend on the room. -/
theorem attach (h : i.Roomier j) (e : EvalError) : j.stack.attach e = i.stack.attach e := by
  rw [CallStack.attach, CallStack.attach, CallStack.capture, CallStack.capture, h.frames, h.depth]

theorem withLocals (h : i.Roomier j) (locals : Option Scope) :
    Roomier ⟨i.env.withLocals locals, i.stack⟩ ⟨j.env.withLocals locals, j.stack⟩ :=
  ⟨congrArg (·.withLocals locals) h.env, h.frames, h.room⟩

theorem pop (h : i.Roomier j) : Roomier ⟨i.env, i.stack.pop⟩ ⟨j.env, j.stack.pop⟩ :=
  ⟨h.env, congrArg List.tail h.frames, h.room⟩

/-- A call that finds room finds it in the roomier stack as well. -/
theorem push (h : i.Roomier j) {frame : Frame} {stack : CallStack}
    (hpush : i.stack.push? frame = some stack) :
    ∃ stack', j.stack.push? frame = some stack' ∧ Roomier ⟨i.env, stack⟩ ⟨j.env, stack'⟩ := by
  have hdepth := h.depth
  have hroom := h.room
  unfold CallStack.push? at hpush
  split at hpush
  · next room =>
    have room' : j.stack.depth < j.stack.capacity := by omega
    cases hpush
    exact ⟨_, if_pos room', h.env, congrArg (frame :: ·) h.frames, h.room⟩
  · cases hpush

theorem defineGlobal (h : i.Roomier j) (name : String) (v : Value) :
    Roomier { i with env := i.env.defineGlobal name v }
      { j with env := j.env.defineGlobal name v } :=
  ⟨congrArg (·.defineGlobal name v) h.env, h.frames, h.room⟩

end Roomier

end Interpreter

namespace Machine

structure State.Roomier (s t : State) : Prop where
  control : t.control = s.control
  pending : t.pending = s.pending
  interpreter : s.interpreter.Roomier t.interpreter

/-- What two machines do that go side by side. -/
inductive Step.Roomier : Step → Step → Prop
  | next {s t : State} (h : s.Roomier t) : Roomier (.next s) (.next t)
  | done (outcome : Outcome) {i j : Interpreter} (h : i.Roomier j) :
      Roomier (.done outcome i) (.done outcome j)

def State.Overflows (s : State) : Prop :=
  ∃ e limit, s.control = .deliver (.error e) ∧ e.cause = .stackOverflow limit

section SideBySide

variable {i j : Interpreter} (h : i.Roomier j) (rest : List Pending)

include h

/-- What an expression leaves pending does not depend on the room there is. -/
theorem roomier_enter (e : Expr) : (enter e rest i).Roomier (enter e rest j) := by
  unfold enter
  split
  case h_6 =>
    rw [h.env]
    split <;> exact ⟨rfl, rfl, h⟩
  all_goals exact ⟨rfl, rfl, h⟩

theorem roomier_proceed (f : FunctionValue) (earlier : List Value) (later : List Expr)
    (site : Span) :
    (proceed f earlier later site rest i).Roomier (proceed f earlier later site rest j) := by
  cases later <;> exact ⟨rfl, rfl, h⟩

/-- A call is the one place where the room is looked at, after the number of arguments. -/
theorem roomier_call (f : FunctionValue) (args : List Value) (site : Option Span) :
    (call f args site rest i).Overflows ∨
      (call f args site rest i).Roomier (call f args site rest j) := by
  unfold call
  split
  · cases hpush : i.stack.push? ⟨f.name, site⟩ with
    | none =>
        exact .inl ⟨_, i.stack.capacity, rfl, i.stack.cause_attach _⟩
    | some stack =>
        obtain ⟨stack', hpush', hroomier⟩ := h.push hpush
        rw [hpush', h.env]
        exact .inr ⟨rfl, rfl, rfl, hroomier.frames, hroomier.room⟩
  · exact .inr ⟨rfl, rfl, h⟩

/-- What is done with a value does not depend on the room there is. -/
theorem roomier_receive (v : Value) (p : Pending) :
    (receive v p rest i).Roomier (receive v p rest j) := by
  cases p with
  | elements earlier later => cases later <;> exact ⟨rfl, rfl, h⟩
  | callee args site =>
      simp only [receive, applyTo]
      split
      · exact roomier_proceed h rest _ _ _ _
      · exact ⟨rfl, rfl, h⟩
  | arguments f earlier later site => exact roomier_proceed h rest _ _ _ _
  | guard condition body later place =>
      simp only [receive, branch]
      split <;> exact ⟨rfl, rfl, h⟩
  | leave saved => exact ⟨rfl, rfl, (h.withLocals saved).pop⟩
  | _ => exact ⟨rfl, rfl, h⟩

theorem roomier_unwind (e : EvalError) (p : Pending) :
    (unwind e p rest i).Roomier (unwind e p rest j) := by
  cases p with
  | leave saved =>
      refine ⟨?_, rfl, (h.withLocals saved).pop⟩
      simp only [unwind, h.attach]
  | _ => exact ⟨rfl, rfl, h⟩

end SideBySide

/-- Two machines go on side by side, or the one with less room finds none. -/
theorem roomier_step {s t : State} (h : s.Roomier t) :
    (∃ u, step s = .next u ∧ u.Overflows) ∨ (step s).Roomier (step t) := by
  obtain ⟨control, pending, i⟩ := s
  obtain ⟨control', pending', j⟩ := t
  obtain ⟨hcontrol, hpending, h⟩ := h
  obtain rfl : control' = control := hcontrol
  obtain rfl : pending' = pending := hpending
  cases control' with
  | evaluate e => exact .inr (.next (roomier_enter h _ e))
  | choose clauses place =>
      cases clauses with
      | nil => exact .inr (.next ⟨rfl, rfl, h⟩)
      | cons clause later => cases clause <;> exact .inr (.next ⟨rfl, rfl, h⟩)
  | invoke f args site =>
      rcases roomier_call h pending' f args site with hoverflows | hroomier
      · exact .inl ⟨_, rfl, hoverflows⟩
      · exact .inr (.next hroomier)
  | deliver outcome =>
      cases pending' with
      | nil => exact .inr (.done outcome h)
      | cons p rest =>
          cases outcome with
          | ok v => exact .inr (.next (roomier_receive h rest v p))
          | error e => exact .inr (.next (roomier_unwind h rest e p))

/-- What is pending passes an error on, with its cause. -/
theorem unwind_deliver (e : EvalError) (p : Pending) (rest : List Pending) (i : Interpreter) :
    ∃ e' j, unwind e p rest i = ⟨.deliver (.error e'), rest, j⟩ ∧ e'.cause = e.cause := by
  cases p with
  | leave saved => exact ⟨_, _, rfl, i.stack.cause_attach e⟩
  | _ => exact ⟨_, _, rfl, rfl⟩

/-- An error is never caught: a run that has met one ends with an error of the same cause. -/
theorem run_deliver_error (e : EvalError) (pending : List Pending) (i : Interpreter) :
    ∃ e', (run ⟨.deliver (.error e), pending, i⟩).1 = .error e' ∧ e'.cause = e.cause := by
  induction pending generalizing e i with
  | nil => exact ⟨e, by rw [run_of_done rfl], rfl⟩
  | cons p rest ih =>
      have hstep : step ⟨.deliver (.error e), p :: rest, i⟩ = .next (unwind e p rest i) := rfl
      obtain ⟨e', j, hunwind, hcause⟩ := unwind_deliver e p rest i
      obtain ⟨e'', hrun, hcause'⟩ := ih e' j
      refine ⟨e'', ?_, hcause'.trans hcause⟩
      rw [run_of_next hstep, hunwind, hrun]

/-- An error of the stack is not caught by anything. -/
theorem State.Overflows.run {s : State} (h : s.Overflows) : (run s).1.Overflows := by
  obtain ⟨control, pending, i⟩ := s
  obtain ⟨e, limit, hcontrol, hcause⟩ := h
  obtain rfl : control = .deliver (.error e) := hcontrol
  obtain ⟨e', hrun, hcause'⟩ := run_deliver_error e pending i
  exact ⟨e', limit, hrun, hcause'.trans hcause⟩

/-- A run has no room for one of its calls, or it has the outcome that it has with more room. -/
theorem run_roomier {s t : State} (h : s.Roomier t) :
    (run s).1.Overflows ∨ (run t).1 = (run s).1 := by
  have hends := ends s
  induction hends generalizing t with
  | intro s _ ih =>
      rcases roomier_step h with ⟨u, hu, hoverflows⟩ | hstep
      · rw [run_of_next hu]
        exact .inl hoverflows.run
      · generalize hs : step s = forward, ht : step t = forward' at hstep
        cases hstep with
        | @next s' t' h' =>
            rw [run_of_next hs, run_of_next ht]
            exact ih s' hs h'
        | done outcome _ =>
            rw [run_of_done hs, run_of_done ht]
            exact .inr rfl

/-- An error that names an exceeded limit names this one. -/
def Names (limit : Nat) (e : EvalError) : Prop := ∀ n, e.cause = .stackOverflow n → n = limit

/-- Whatever error is delivered next, it names no limit but this one. -/
def Control.Names (limit : Nat) (c : Control) : Prop :=
  ∀ e, c = .deliver (.error e) → Machine.Names limit e

section Names

variable (limit : Nat)

theorem names_of_cause {e e' : EvalError} (he : Names limit e) (h : e'.cause = e.cause) :
    Names limit e' :=
  fun n hn => he n (h.symm.trans hn)

theorem names_deliver_ok (v : Value) : (Control.deliver (.ok v)).Names limit := by
  intro e he
  cases he

theorem names_evaluate (e : Expr) : (Control.evaluate e).Names limit := by
  intro e' he
  cases he

theorem names_invoke (f : FunctionValue) (args : List Value) (site : Option Span) :
    (Control.invoke f args site).Names limit := by
  intro e he
  cases he

theorem names_choose (clauses : List Clause) (place : Span) :
    (Control.choose clauses place).Names limit := by
  intro e he
  cases he

theorem names_deliver_error {e : EvalError} (he : Names limit e) :
    (Control.deliver (.error e)).Names limit := by
  intro e' he'
  cases he'
  exact he

theorem names_binary (op : BinaryOp) (left right : Value) :
    (Control.deliver (op.apply left right)).Names limit := by
  unfold BinaryOp.apply
  split
  · exact names_deliver_ok limit _
  · exact names_deliver_error limit (by rintro n ⟨⟩)

theorem names_unary (op : UnaryOp) (operand : Value) :
    (Control.deliver (op.apply operand)).Names limit := by
  unfold UnaryOp.apply
  split
  · exact names_deliver_ok limit _
  · exact names_deliver_error limit (by rintro n ⟨⟩)

theorem names_enter (e : Expr) (rest : List Pending) (i : Interpreter) :
    (enter e rest i).control.Names limit := by
  unfold enter
  split
  case h_6 =>
    split
    · exact names_deliver_ok limit _
    · exact names_deliver_error limit (by rintro n ⟨⟩)
  all_goals first | exact names_deliver_ok limit _ | exact names_evaluate limit _

theorem names_proceed (f : FunctionValue) (earlier : List Value) (later : List Expr)
    (site : Span) (rest : List Pending) (i : Interpreter) :
    (proceed f earlier later site rest i).control.Names limit := by
  cases later with
  | nil => exact names_invoke limit _ _ _
  | cons e es => exact names_evaluate limit e

/-- A call that is refused for want of room names the capacity of the stack. -/
theorem names_call (f : FunctionValue) (args : List Value) (site : Option Span)
    (rest : List Pending) (i : Interpreter) :
    (call f args site rest i).control.Names i.stack.capacity := by
  unfold call
  split
  · split
    · exact names_choose _ _ _
    · have hoverflow : Names i.stack.capacity i.stack.overflow :=
        fun n hn => (EvalError.Cause.stackOverflow.inj hn).symm
      exact names_deliver_error _ (names_of_cause _ hoverflow (i.stack.cause_attach _))
  · exact names_deliver_error _ (by rintro n ⟨⟩)

/-- A value that is handed on makes no error of the stack. -/
theorem names_receive (v : Value) (p : Pending) (rest : List Pending) (i : Interpreter) :
    (receive v p rest i).control.Names limit := by
  cases p with
  | combine op left => exact names_binary limit op left v
  | operate op => exact names_unary limit op v
  | elements earlier later =>
      cases later with
      | nil => exact names_deliver_ok limit _
      | cons e es => exact names_evaluate limit e
  | callee args site =>
      simp only [receive, applyTo]
      split
      · exact names_proceed limit _ _ _ _ _ _
      · exact names_deliver_error limit (by rintro n ⟨⟩)
  | arguments f earlier later site => exact names_proceed limit _ _ _ _ _ _
  | guard condition body later place =>
      simp only [receive, branch]
      split
      · exact names_evaluate limit body
      · exact names_choose limit later place
      · exact names_deliver_error limit (by rintro n ⟨⟩)
  | rightOperand op right => exact names_evaluate limit right
  | located span => exact names_deliver_ok limit v
  | leave saved => exact names_deliver_ok limit v

theorem names_unwind {e : EvalError} (he : Names limit e) (p : Pending) (rest : List Pending)
    (i : Interpreter) : (unwind e p rest i).control.Names limit := by
  obtain ⟨e', j, hunwind, hcause⟩ := unwind_deliver e p rest i
  rw [hunwind]
  exact names_deliver_error limit (names_of_cause limit he hcause)

end Names

/-- A step leaves the capacity of the stack as it was. -/
theorem capacity_of_step {s t : State} (h : step s = .next t) :
    t.interpreter.stack.capacity = s.interpreter.stack.capacity := by
  cases effect_of_step h with
  | keeps same calls => rw [same]
  | enters frame stack locals push now calls =>
      rw [now]
      exact (CallStack.depth_push? push).2.1
  | leaves saved now calls =>
      rw [now]
      rfl

/-- Only the room of the stack is ever named as an exceeded limit. -/
theorem names_step {s t : State} (h : step s = .next t)
    (hs : s.control.Names s.interpreter.stack.capacity) :
    t.control.Names t.interpreter.stack.capacity := by
  rw [capacity_of_step h]
  obtain ⟨control, pending, i⟩ := s
  cases control with
  | evaluate e =>
      cases h
      exact names_enter _ e _ i
  | choose clauses place =>
      cases clauses with
      | nil =>
          cases h
          exact names_deliver_error _ (by rintro n ⟨⟩)
      | cons clause later =>
          cases clause with
          | guarded condition body span =>
              cases h
              exact names_evaluate _ condition
          | catchAll body span =>
              cases h
              exact names_evaluate _ body
  | invoke f args site =>
      cases h
      exact names_call f args site pending i
  | deliver outcome =>
      cases pending with
      | nil => cases h
      | cons p rest =>
          cases outcome with
          | ok v =>
              cases h
              exact names_receive _ v p rest i
          | error e =>
              cases h
              exact names_unwind _ (hs e rfl) p rest i

/-- A run that has no room for one of its calls says which limit it exceeded. -/
theorem names_run {s : State} (hs : s.control.Names s.interpreter.stack.capacity) {e : EvalError}
    (h : (run s).1 = .error e) : Names s.interpreter.stack.capacity e := by
  have hends := ends s
  induction hends with
  | intro s _ ih =>
      cases hstep : step s with
      | next t =>
          rw [run_of_next hstep] at h
          rw [← capacity_of_step hstep]
          exact ih t hstep (names_step hstep hs) h
      | done o i =>
          obtain rfl := eq_of_step_done hstep
          rw [run_of_done hstep] at h
          exact hs e (congrArg Control.deliver h)

end Machine

namespace Interpreter

variable {i j : Interpreter}

/-- With more room an expression has the same outcome, unless it has run out of room. -/
theorem evaluate_roomier (h : i.Roomier j) (e : Expr) :
    (i.evaluate e).1.Overflows ∨ (j.evaluate e).1 = (i.evaluate e).1 :=
  Machine.run_roomier ⟨rfl, rfl, h⟩

/-- The answer of an expression that the interpreter does not have to give up. -/
theorem evaluate_eq_of_roomier (h : i.Roomier j) {e : Expr}
    (hroom : ¬ (i.evaluate e).1.Overflows) :
    i.evaluate e = ((i.evaluate e).1, i) ∧ j.evaluate e = ((i.evaluate e).1, j) := by
  have hsame := (evaluate_roomier h e).resolve_left hroom
  exact ⟨Prod.ext rfl (evaluate_interpreter i e), Prod.ext hsame (evaluate_interpreter j e)⟩

/-- Side by side, a statement has the same answer and the same effect. -/
theorem runStatement_roomier (h : i.Roomier j) (s : Statement) :
    (i.runStatement s).1.Overflows ∨
      (j.runStatement s).1 = (i.runStatement s).1 ∧
        (i.runStatement s).2.Roomier (j.runStatement s).2 := by
  cases s with
  | define typeName name init s =>
      by_cases hroom : (i.evaluate init).1.Overflows
      · obtain ⟨e, limit, herror, hcause⟩ := hroom
        refine .inl ⟨e, limit, ?_, hcause⟩
        simp only [runStatement]
        cases hanswer : i.evaluate init with
        | mk outcome k =>
            rw [hanswer] at herror
            obtain rfl : outcome = .error e := herror
            rfl
      · obtain ⟨hi, hj⟩ := evaluate_eq_of_roomier h hroom
        simp only [runStatement]
        rw [hj, hi]
        cases (i.evaluate init).1 with
        | ok v => exact .inr ⟨rfl, h.defineGlobal name v⟩
        | error e => exact .inr ⟨rfl, h⟩
  | function d s => exact .inr ⟨rfl, h.defineGlobal d.name _⟩
  | expression e s =>
      by_cases hroom : (i.evaluate e).1.Overflows
      · exact .inl hroom
      · obtain ⟨hi, hj⟩ := evaluate_eq_of_roomier h hroom
        simp only [runStatement]
        rw [hj, hi]
        exact .inr ⟨rfl, h⟩
  | comment text s => exact .inr ⟨rfl, h⟩

/-- Statements one after the other have the same outcome with more room, unless one runs out of
it. -/
theorem runFrom_roomier (h : i.Roomier j) (last : Value) (ss : List Statement) :
    (i.runFrom last ss).1.Overflows ∨
      (j.runFrom last ss).1 = (i.runFrom last ss).1 ∧
        (i.runFrom last ss).2.Roomier (j.runFrom last ss).2 := by
  induction ss generalizing i j last with
  | nil => exact .inr ⟨rfl, h⟩
  | cons s ss ih =>
      have hstatement := runStatement_roomier h s
      cases hi : i.runStatement s with
      | mk outcome i' =>
          cases hj : j.runStatement s with
          | mk outcome' j' =>
              rw [hi, hj] at hstatement
              cases outcome with
              | ok v =>
                  rcases hstatement with hoverflows | ⟨hsame, hroomier⟩
                  · exact absurd hoverflows (Outcome.not_overflows_ok v)
                  · obtain rfl : outcome' = .ok v := hsame
                    rw [runFrom_cons_ok hi, runFrom_cons_ok hj]
                    exact ih hroomier v
              | error e =>
                  rw [runFrom_cons_error hi]
                  rcases hstatement with hoverflows | ⟨hsame, hroomier⟩
                  · exact .inl hoverflows
                  · obtain rfl : outcome' = .error e := hsame
                    rw [runFrom_cons_error hj]
                    exact .inr ⟨rfl, hroomier⟩

/-- The limit that a statement overflows is that of the interpreter. -/
theorem runStatement_names {s : Statement} {e : EvalError} {k : Interpreter}
    (h : i.runStatement s = (.error e, k)) : Machine.Names i.stack.capacity e := by
  have hevaluate {e' : Expr} (he : (i.evaluate e').1 = .error e) :
      Machine.Names i.stack.capacity e :=
    Machine.names_run (s := ⟨.evaluate e', [], i⟩) (Machine.names_evaluate _ e') he
  cases s with
  | define typeName name init s =>
      simp only [runStatement] at h
      cases hanswer : i.evaluate init with
      | mk outcome k' =>
          rw [hanswer] at h
          cases outcome with
          | ok v => cases h
          | error e' =>
              cases h
              exact hevaluate (congrArg Prod.fst hanswer)
  | function d s => cases h
  | expression e' s => exact hevaluate (congrArg Prod.fst h)
  | comment text s => cases h

/-- A program that has no room for one of its calls says which limit it exceeded. -/
theorem runFrom_names {last : Value} {ss : List Statement} {e : EvalError}
    (h : (i.runFrom last ss).1 = .error e) : Machine.Names i.stack.capacity e := by
  induction ss generalizing i last with
  | nil => cases h
  | cons s ss ih =>
      cases hi : i.runStatement s with
      | mk outcome k =>
          cases outcome with
          | ok v =>
              rw [runFrom_cons_ok hi] at h
              rw [← stack_of_runStatement hi]
              exact ih h
          | error e' =>
              rw [runFrom_cons_error hi] at h
              cases h
              exact runStatement_names hi

/-- A fresh interpreter with one limit against one with another limit or none. -/
theorem roomier_new {a b : Option Nat} (h : (CallStack.empty a).capacity ≤
    (CallStack.empty b).capacity) : (new a).Roomier (new b) :=
  ⟨rfl, rfl, h⟩

/-- The recursion limit only cuts runs short. An outcome that is not the exceeded limit comes
about with every larger limit, and with none, in the same way and with the same globals; and a
program that exceeds a limit exceeds every smaller one. Each error names its own limit. -/
theorem runProgram_limit (p : Program) {n m : Nat} (hle : n ≤ m) (hm : m ≤ Config.maxLimit) :
    (∀ (outcome : Outcome) (i : Interpreter), (new (some n)).runProgram p = (outcome, i) →
      ¬ outcome.Overflows →
        ∀ larger ∈ [some m, none], ∃ j,
          (new larger).runProgram p = (outcome, j) ∧ j.globals = i.globals) ∧
    ∀ (e : EvalError) (j : Interpreter), (new (some m)).runProgram p = (.error e, j) →
      e.cause = .stackOverflow m →
        ∃ e' i, (new (some n)).runProgram p = (.error e', i) ∧ e'.cause = .stackOverflow n := by
  have hlarger : ∀ larger ∈ [some m, none], (new (some n)).Roomier (new larger) := by
    intro larger hmem
    refine roomier_new ?_
    simp only [List.mem_cons, List.not_mem_nil, or_false] at hmem
    rcases hmem with rfl | rfl
    · exact hle
    · have haddressable : Config.maxLimit < CallStack.addressable := by decide
      show n ≤ CallStack.addressable
      omega
  refine ⟨?_, ?_⟩
  · intro outcome i hrun hroom larger hmem
    rcases runFrom_roomier (hlarger larger hmem) .null p.statements with hoverflows | ⟨hsame, h⟩
    · rw [runProgram] at hrun
      rw [hrun] at hoverflows
      exact absurd hoverflows hroom
    · rw [runProgram] at hrun
      rw [hrun] at hsame h
      exact ⟨((new larger).runFrom .null p.statements).2, Prod.ext hsame rfl,
        congrArg Environment.globals h.env⟩
  · intro e j hrun hcause
    rcases runFrom_roomier (hlarger (some m) (by simp)) .null p.statements with
      ⟨e', limit, herror, hcause'⟩ | ⟨hsame, -⟩
    · obtain rfl : limit = n := runFrom_names herror limit hcause'
      exact ⟨e', _, Prod.ext herror rfl, hcause'⟩
    · have herror : ((new (some n)).runFrom .null p.statements).1 = .error e :=
        hsame.symm.trans (congrArg Prod.fst hrun)
      obtain rfl : m = n := runFrom_names herror m hcause
      exact ⟨e, _, Prod.ext herror rfl, hcause⟩

/-- A function without parameters, declared under the name `f`. -/
private def declaration (body : Expr) : Statement :=
  .function ⟨"f", [], "number", [], .always [] body⟩ (.point 0)

private def callOfF : Expr := .call (.ident "f" (.point 0)) [] (.point 0)

private def declaredAndCalled (body : Expr) : Program :=
  ⟨[declaration body, .expression callOfF (.point 0)]⟩

private def constantBody : Expr := .boolean true "true" (.point 0)

theorem runProgram_limit_declaredAndCalled :
    (∃ i, (new (some 1)).runProgram (declaredAndCalled constantBody) = (.ok (.boolean true), i) ∧
      ∀ larger ∈ [some 2, none], ∃ j,
        (new larger).runProgram (declaredAndCalled constantBody) = (.ok (.boolean true), j) ∧
          j.globals = i.globals) ∧
    (∃ e j, (new (some 2)).runProgram (declaredAndCalled callOfF) = (.error e, j) ∧
      e.cause = .stackOverflow 2) ∧
    ∃ e i, (new (some 1)).runProgram (declaredAndCalled callOfF) = (.error e, i) ∧
      e.cause = .stackOverflow 1 := by
  have hle : 1 ≤ 2 := by decide
  have hmax : 2 ≤ Config.maxLimit := by decide
  let i := ((new (some 1)).runStatement (declaration constantBody)).2
  let j := ((new (some 2)).runStatement (declaration callOfF)).2
  let s : Statement := .expression callOfF (.point 0)
  have hi : i.runStatement s = (.ok (.boolean true), i) := by
    cbv
  have hvalue : (new (some 1)).runProgram (declaredAndCalled constantBody) =
      (.ok (.boolean true), i) :=
    (runFrom_cons_ok rfl _ _).trans (runFrom_cons_ok hi _ [])
  let frame : Frame := ⟨"f", some (.point 0)⟩
  let e : EvalError := ⟨.stackOverflow 2, some (.point 0), some ⟨[frame, frame], 0⟩⟩
  have hj : j.runStatement s = (.error e, j) := by
    cbv
  have hoverflow : (new (some 2)).runProgram (declaredAndCalled callOfF) = (.error e, j) :=
    (runFrom_cons_ok rfl _ _).trans (runFrom_cons_error hj _ [])
  refine ⟨⟨i, hvalue, ?_⟩, ⟨e, j, hoverflow, rfl⟩, ?_⟩
  · exact (runProgram_limit _ hle hmax).1 _ i hvalue (Outcome.not_overflows_ok _)
  · exact (runProgram_limit _ hle hmax).2 e j hoverflow rfl

end Interpreter

end Clausal
