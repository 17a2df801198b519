import Clausal.Evaluation.Interpreter

/-!
Evaluation leaves no trace. Whatever happens while an expression is evaluated, the interpreter is
in the end the one that it was: each call that was entered is left again, also by an error, and
leaving puts back the arguments of the caller and takes the call off the stack. So bindings change
only by declarations, and between two operations nothing local and no active call is left.
-/

namespace Clausal

namespace Machine

/-- The bindings of the caller that leaving a call puts back. -/
def Pending.saved? : Pending → Option (Option Scope)
  | .leave saved => some saved
  | _ => none

/-- What the calls that are still to be left put back, the innermost call first. -/
def saves (pending : List Pending) : List (Option Scope) := pending.filterMap Pending.saved?

/-- What one step does to the interpreter and to the calls that are still to be left. -/
inductive Effect (s t : State) : Prop
  | keeps (same : t.interpreter = s.interpreter) (calls : saves t.pending = saves s.pending)
  | enters (frame : Frame) (stack : CallStack) (locals : Scope)
      (push : s.interpreter.stack.push? frame = some stack)
      (now : t.interpreter = ⟨s.interpreter.env.withLocals (some locals), stack⟩)
      (calls : saves t.pending = s.interpreter.env.locals :: saves s.pending)
  | leaves (saved : Option Scope)
      (now : t.interpreter = ⟨s.interpreter.env.withLocals saved, s.interpreter.stack.pop⟩)
      (calls : saves s.pending = saved :: saves t.pending)

theorem effect_enter (e : Expr) (s : State) :
    Effect s (enter e (.located e.span :: s.pending) s.interpreter) := by
  unfold enter
  split
  case h_6 => split <;> exact .keeps rfl rfl
  all_goals exact .keeps rfl rfl

theorem effect_call (f : FunctionValue) (args : List Value) (site : Option Span) (s : State) :
    Effect s (call f args site s.pending s.interpreter) := by
  unfold call
  split
  · split
    · next stack hpush => exact .enters _ stack _ hpush rfl rfl
    · exact .keeps rfl rfl
  · exact .keeps rfl rfl

/-- A value that leaves a function brings back the scope and the stack from before the call. -/
theorem effect_receive (v : Value) {s : State} {p : Pending} {rest : List Pending}
    (h : s.pending = p :: rest) : Effect s (receive v p rest s.interpreter) := by
  have hsaves : saves s.pending = saves (p :: rest) := congrArg saves h
  cases p with
  | rightOperand op right => exact .keeps rfl hsaves.symm
  | combine op left => exact .keeps rfl hsaves.symm
  | operate op => exact .keeps rfl hsaves.symm
  | elements earlier later => cases later <;> exact .keeps rfl hsaves.symm
  | callee args site =>
      simp only [receive, applyTo]
      split
      · cases args <;> exact .keeps rfl hsaves.symm
      · exact .keeps rfl hsaves.symm
  | arguments f earlier later site => cases later <;> exact .keeps rfl hsaves.symm
  | guard condition body later place =>
      simp only [receive, branch]
      split <;> exact .keeps rfl hsaves.symm
  | located span => exact .keeps rfl hsaves.symm
  | leave saved => exact .leaves saved rfl hsaves

/-- An error that leaves a function does so as well. -/
theorem effect_unwind (e : EvalError) {s : State} {p : Pending} {rest : List Pending}
    (h : s.pending = p :: rest) : Effect s (unwind e p rest s.interpreter) := by
  have hsaves : saves s.pending = saves (p :: rest) := congrArg saves h
  cases p with
  | leave saved => exact .leaves saved rfl hsaves
  | _ => exact .keeps rfl hsaves.symm

/-- A step enters one function, leaves one, or keeps the interpreter. -/
theorem effect_of_step {s t : State} (h : step s = .next t) : Effect s t := by
  unfold step at h
  split at h
  · cases h
    exact effect_enter _ s
  · cases h
    exact .keeps rfl rfl
  · cases h
    exact .keeps rfl rfl
  · cases h
    exact .keeps rfl rfl
  · cases h
    exact effect_call _ _ _ s
  · split at h
    · cases h
    · next hpending =>
      split at h
      · cases h
        exact effect_receive _ hpending
      · cases h
        exact effect_unwind _ hpending

/-- The interpreter after all calls that are still to be left have been left. -/
def restored : List (Option Scope) → Interpreter → Interpreter
  | [], i => i
  | saved :: more, i => restored more ⟨i.env.withLocals saved, i.stack.pop⟩

def State.restored (s : State) : Interpreter := Machine.restored (saves s.pending) s.interpreter

/-- A step may enter or leave a call, and does not change where this will lead. -/
theorem restored_of_step {s t : State} (h : step s = .next t) : t.restored = s.restored := by
  simp only [State.restored]
  cases effect_of_step h with
  | keeps same calls => rw [same, calls]
  | enters frame stack locals push now calls =>
      rw [now, calls, restored, interpreter_after_leave (some locals) push]
  | leaves saved now calls => rw [now, calls, restored]

/-- A run is over when an outcome is delivered and nothing is pending. -/
theorem eq_of_step_done {s : State} {outcome : Outcome} {i : Interpreter}
    (h : step s = .done outcome i) : s = ⟨.deliver outcome, [], i⟩ := by
  obtain ⟨control, pending, j⟩ := s
  cases control with
  | deliver outcome' =>
      cases pending with
      | nil =>
          cases h
          rfl
      | cons p rest => cases outcome' <;> cases h
  | choose clauses place =>
      cases clauses with
      | nil => cases h
      | cons clause later => cases clause <;> cases h
  | _ => cases h

/-- Where a run is done, nothing is left to be brought back. -/
theorem restored_of_done {s : State} {o : Outcome} {i : Interpreter} (h : step s = .done o i) :
    s.restored = i := by
  obtain rfl := eq_of_step_done h
  rfl

/-- A run ends with the interpreter restored, whatever its outcome. -/
theorem run_interpreter (s : State) : (run s).2 = s.restored := by
  have hends := ends s
  induction hends with
  | intro s _ ih =>
      cases hstep : step s with
      | next t => rw [run_of_next hstep, ih t hstep, restored_of_step hstep]
      | done o i => rw [run_of_done hstep, restored_of_done hstep]

inductive Reaches (s : State) : State → Prop
  | start : Reaches s s
  | step {t u : State} (h : Reaches s t) (next : Machine.step t = .next u) : Reaches s u

theorem Reaches.run_eq {s t : State} (h : Reaches s t) : run t = run s := by
  induction h with
  | start => rfl
  | step _ next ih => exact (run_of_next next).symm.trans ih

/-- There is an active call for each call that is still to be left. -/
def Balanced (s : State) : Prop := (saves s.pending).length ≤ s.interpreter.stack.depth

/-- Calls are entered and left in turn. -/
theorem balanced_of_step {s t : State} (hs : Balanced s) (h : step s = .next t) : Balanced t := by
  simp only [Balanced] at hs ⊢
  cases effect_of_step h with
  | keeps same calls => rwa [same, calls]
  | enters frame stack locals push now calls =>
      have hdepth := (CallStack.depth_push? push).1
      rw [now, calls, List.length_cons]
      simp only
      omega
  | leaves saved now calls =>
      rw [calls, List.length_cons] at hs
      rw [now]
      simp only [CallStack.pop]
      omega

theorem Reaches.balanced {s t : State} (h : Reaches s t) (hs : Balanced s) : Balanced t := by
  induction h with
  | start => exact hs
  | step _ next ih => exact balanced_of_step ih next

/-- A run starts balanced, whatever it is about. -/
theorem balanced_start (control : Control) (i : Interpreter) : Balanced ⟨control, [], i⟩ :=
  Nat.zero_le _

/-- The next step takes a call off the stack. -/
def State.Pops (s : State) : Prop :=
  ∃ outcome saved rest, s.control = .deliver outcome ∧ s.pending = .leave saved :: rest

/-- A function that is left was entered, so its frame is there. -/
theorem Balanced.not_isEmpty {s : State} (hs : Balanced s) (hpops : s.Pops) :
    s.interpreter.stack.isEmpty = false := by
  obtain ⟨outcome, saved, rest, -, hpending⟩ := hpops
  have hlength : (saves s.pending).length = (saves rest).length + 1 := by
    rw [hpending]
    rfl
  simp only [Balanced] at hs
  simp only [CallStack.isEmpty, beq_eq_false_iff_ne]
  omega

end Machine

namespace Scope

theorem lookup_insert_of_ne {name other : String} (h : other ≠ name) (value : Value)
    (bindings : List (String × Value)) :
    (insert name value bindings).lookup other = bindings.lookup other := by
  have hne : (other == name) = false := beq_eq_false_iff_ne.mpr h
  induction bindings with
  | nil => simp [insert, List.lookup_cons, hne]
  | cons b rest ih =>
      obtain ⟨n, v⟩ := b
      unfold insert
      split
      · rw [List.lookup_cons, hne]
      · split
        · next hsame =>
          subst hsame
          rw [List.lookup_cons, List.lookup_cons, hne]
        · rw [List.lookup_cons, List.lookup_cons, ih]

theorem lookup?_define_of_ne {name other : String} (h : other ≠ name) (s : Scope) (value : Value) :
    (s.define name value).lookup? other = s.lookup? other :=
  lookup_insert_of_ne h value s.bindings

end Scope

/-- The global that a statement binds when it succeeds. -/
def Statement.declares? : Statement → Option String
  | .define _ name _ _ => some name
  | .function d _ => some d.name
  | .expression .. | .comment .. => none

namespace Interpreter

/-- Nothing is local and no call is active. -/
structure Idle (i : Interpreter) : Prop where
  locals : i.env.locals = none
  frames : i.stack.frames = []

/-- The two interpreters differ in the globals alone, and there in one name at most. -/
structure SameBut (name? : Option String) (i j : Interpreter) : Prop where
  locals : j.env.locals = i.env.locals
  stack : j.stack = i.stack
  globals : ∀ name, some name ≠ name? → j.globals.lookup? name = i.globals.lookup? name

/-- An evaluation leaves the interpreter as it was, whatever its outcome. -/
theorem evaluate_interpreter (i : Interpreter) (e : Expr) : (i.evaluate e).2 = i :=
  Machine.run_interpreter ⟨.evaluate e, [], i⟩

/-- So does a call from outside. -/
theorem call_interpreter (i : Interpreter) (f : FunctionValue) (args : List Value)
    (site : Option Span) : (i.call f args site).2 = i :=
  Machine.run_interpreter ⟨.invoke f args site, [], i⟩

/-- An answer is bound where it is a value, and an error binds nothing. -/
theorem bind_of_interpreter (name : String) {answer : Outcome × Interpreter} {i : Interpreter}
    (h : answer.2 = i) :
    (∃ v, bind name answer = (.ok v, { i with env := i.env.defineGlobal name v })) ∨
      ∃ e, bind name answer = (.error e, i) := by
  obtain ⟨outcome, j⟩ := answer
  obtain rfl : j = i := h
  cases outcome with
  | ok v => exact .inl ⟨v, rfl⟩
  | error e => exact .inr ⟨e, rfl⟩

/-- A statement that fails changes nothing, and one that succeeds binds what it declares. -/
theorem runStatement_cases (i : Interpreter) (s : Statement) :
    (∃ v name, s.declares? = some name ∧
      i.runStatement s = (.ok v, { i with env := i.env.defineGlobal name v })) ∨
    (∃ v, s.declares? = none ∧ i.runStatement s = (.ok v, i)) ∨
    ∃ e, i.runStatement s = (.error e, i) := by
  cases s with
  | define typeName name init s =>
      rcases bind_of_interpreter name (evaluate_interpreter i init) with ⟨v, h⟩ | ⟨e, h⟩
      · exact .inl ⟨v, name, rfl, h⟩
      · exact .inr (.inr ⟨e, h⟩)
  | function d s => exact .inl ⟨_, d.name, rfl, rfl⟩
  | expression e s =>
      have h := evaluate_interpreter i e
      simp only [runStatement]
      cases hanswer : i.evaluate e with
      | mk outcome j =>
          obtain rfl : j = i := by rwa [hanswer] at h
          cases outcome with
          | ok v => exact .inr (.inl ⟨v, rfl, rfl⟩)
          | error e => exact .inr (.inr ⟨e, rfl⟩)
  | comment text s => exact .inr (.inl ⟨.null, rfl, rfl⟩)

/-- A statement changes at most the global it declares. -/
theorem sameBut_runStatement (i : Interpreter) (s : Statement) :
    SameBut s.declares? i (i.runStatement s).2 := by
  rcases runStatement_cases i s with ⟨v, name, hname, h⟩ | ⟨v, hname, h⟩ | ⟨e, h⟩
  · rw [h, hname]
    refine ⟨rfl, rfl, fun other hother => ?_⟩
    exact Scope.lookup?_define_of_ne (fun he => hother (congrArg some he)) i.globals v
  · rw [h]
    exact ⟨rfl, rfl, fun _ _ => rfl⟩
  · rw [h]
    exact ⟨rfl, rfl, fun _ _ => rfl⟩

/-- A statement that fails changes nothing. -/
theorem runStatement_error {i j : Interpreter} {s : Statement} {e : EvalError}
    (h : i.runStatement s = (.error e, j)) : j = i := by
  rcases runStatement_cases i s with ⟨v, name, -, hs⟩ | ⟨v, -, hs⟩ | ⟨e', hs⟩
  · cases hs.symm.trans h
  · cases hs.symm.trans h
  · cases hs.symm.trans h
    rfl

theorem stack_of_runStatement {i j : Interpreter} {s : Statement} {outcome : Outcome}
    (h : i.runStatement s = (outcome, j)) : j.stack = i.stack := by
  have hsame := (sameBut_runStatement i s).stack
  rwa [h] at hsame

theorem runFrom_cons_ok {i k : Interpreter} {s : Statement} {v : Value}
    (h : i.runStatement s = (.ok v, k)) (last : Value) (ss : List Statement) :
    i.runFrom last (s :: ss) = k.runFrom v ss := by
  rw [runFrom, h]

theorem runFrom_cons_error {i k : Interpreter} {s : Statement} {e : EvalError}
    (h : i.runStatement s = (.error e, k)) (last : Value) (ss : List Statement) :
    i.runFrom last (s :: ss) = (.error e, k) := by
  rw [runFrom, h]

theorem Idle.of_sameBut {i j : Interpreter} {name? : Option String} (hi : i.Idle)
    (h : SameBut name? i j) : j.Idle :=
  ⟨h.locals.trans hi.locals, (congrArg CallStack.frames h.stack).trans hi.frames⟩

/-- Between statements no call is open. -/
theorem Idle.runFrom {i : Interpreter} (hi : i.Idle) (last : Value) (ss : List Statement) :
    (i.runFrom last ss).2.Idle := by
  induction ss generalizing i last with
  | nil => exact hi
  | cons s ss ih =>
      have hs : (i.runStatement s).2.Idle := hi.of_sameBut (sameBut_runStatement i s)
      simp only [Interpreter.runFrom]
      cases hanswer : i.runStatement s with
      | mk outcome j =>
          rw [hanswer] at hs
          cases outcome with
          | ok v => exact ih hs v
          | error e => exact hs

inductive Operation
  | program (p : Program)
  | statement (s : Statement)
  | expression (e : Expr)
  | call (f : FunctionValue) (args : List Value) (site : Option Span)
  | reset

def perform (i : Interpreter) : Operation → Interpreter
  | .program p => (i.runProgram p).2
  | .statement s => (i.runStatement s).2
  | .expression e => (i.evaluate e).2
  | .call f args site => (i.call f args site).2
  | .reset => i.reset

def performAll (i : Interpreter) (ops : List Operation) : Interpreter := ops.foldl perform i

/-- Between operations no call is open. -/
theorem Idle.perform {i : Interpreter} (hi : i.Idle) (op : Operation) : (i.perform op).Idle := by
  cases op with
  | program p => exact hi.runFrom .null p.statements
  | statement s => exact hi.of_sameBut (sameBut_runStatement i s)
  | expression e =>
      rw [Interpreter.perform, evaluate_interpreter]
      exact hi
  | call f args site =>
      rw [Interpreter.perform, call_interpreter]
      exact hi
  | reset => exact ⟨rfl, rfl⟩

theorem Idle.performAll {i : Interpreter} (hi : i.Idle) (ops : List Operation) :
    (i.performAll ops).Idle := by
  induction ops generalizing i with
  | nil => exact hi
  | cons op ops ih => exact ih (hi.perform op)

/-- The states that the machine passes through while an operation is performed. -/
inductive Visits : Interpreter → Operation → Machine.State → Prop
  | expression {i : Interpreter} {e : Expr} {m : Machine.State}
      (h : Machine.Reaches ⟨.evaluate e, [], i⟩ m) : Visits i (.expression e) m
  | call {i : Interpreter} {f : FunctionValue} {args : List Value} {site : Option Span}
      {m : Machine.State} (h : Machine.Reaches ⟨.invoke f args site, [], i⟩ m) :
      Visits i (.call f args site) m
  | statement {i : Interpreter} {e : Expr} {s : Span} {m : Machine.State}
      (h : Visits i (.expression e) m) : Visits i (.statement (.expression e s)) m
  | define {i : Interpreter} {typeName name : String} {init : Expr} {s : Span}
      {m : Machine.State} (h : Visits i (.expression init) m) :
      Visits i (.statement (.define typeName name init s)) m
  | first {i : Interpreter} {s : Statement} {ss : List Statement} {m : Machine.State}
      (h : Visits i (.statement s) m) : Visits i (.program ⟨s :: ss⟩) m
  | later {i j : Interpreter} {s : Statement} {ss : List Statement} {v : Value}
      {m : Machine.State} (before : i.runStatement s = (.ok v, j))
      (h : Visits j (.program ⟨ss⟩) m) : Visits i (.program ⟨s :: ss⟩) m

/-- Every state that an operation goes through is balanced. -/
theorem Visits.balanced {i : Interpreter} {op : Operation} {m : Machine.State}
    (h : Visits i op m) : Machine.Balanced m := by
  induction h with
  | expression h | call h => exact h.balanced (Machine.balanced_start _ _)
  | statement _ ih | define _ ih | first _ ih | later _ _ ih => exact ih

/-- Evaluation is pure: an expression and a call leave the whole interpreter as it was, whatever
their outcome. So nothing local and no active call is left between operations, no operation takes
a call off an empty stack, and a statement changes at most the global that it declares, and that
only if it succeeds. -/
theorem evaluation_pure :
    (∀ (i : Interpreter) (e : Expr), (i.evaluate e).2 = i) ∧
    (∀ (i : Interpreter) (f : FunctionValue) (args : List Value) (site : Option Span),
      (i.call f args site).2 = i) ∧
    (∀ (limit : Option Nat) (ops : List Operation), ((new limit).performAll ops).Idle) ∧
    (∀ (limit : Option Nat) (ops : List Operation) (op : Operation) (m : Machine.State),
      Visits ((new limit).performAll ops) op m → m.Pops →
        m.interpreter.stack.isEmpty = false) ∧
    (∀ (i : Interpreter) (s : Statement), SameBut s.declares? i (i.runStatement s).2 ∧
      ∀ (e : EvalError) (j : Interpreter), i.runStatement s = (.error e, j) → j = i) := by
  refine ⟨evaluate_interpreter, call_interpreter, ?_, ?_, ?_⟩
  · intro limit ops
    have hnew : (new limit).Idle := ⟨rfl, rfl⟩
    exact hnew.performAll ops
  · intro limit ops op m hvisits hpops
    exact hvisits.balanced.not_isEmpty hpops
  · intro i s
    exact ⟨sameBut_runStatement i s, fun _ _ => runStatement_error⟩

def constantTrue : FunctionValue :=
  .anonymous (.always [] (.boolean true "true" (.point 0)))

theorem evaluation_pure_constantTrue :
    ∃ m, Visits (new (some 1)) (.call constantTrue [] none) m ∧ m.Pops ∧
      m.interpreter.stack.isEmpty = false := by
  let before : Machine.State := ⟨.invoke constantTrue [] none, [], new (some 1)⟩
  let stack : CallStack := ⟨[⟨"<anonymous>", none⟩], some 1, 1, rfl⟩
  let returning : Machine.State :=
    ⟨.deliver (.ok (.boolean true)), [.leave none], ⟨⟨.empty, some .empty⟩, stack⟩⟩
  have hreaches : Machine.Reaches before returning :=
    .step (.step (.step (.step .start rfl) rfl) rfl) rfl
  have hvisits : Visits (new (some 1)) (.call constantTrue [] none) returning := .call hreaches
  have hpops : returning.Pops := ⟨_, _, _, rfl, rfl⟩
  exact ⟨returning, hvisits, hpops, evaluation_pure.2.2.2.1 (some 1) [] _ _ hvisits hpops⟩

end Interpreter

end Clausal
