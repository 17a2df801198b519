import Clausal.Proofs.Evaluation.Purity

/-!
Evaluation comes to an end, and never has more calls active than the limit allows. Whatever
functions the globals, the arguments and the local scope hold, every operation leads the machine
to an answer in finitely many steps; on the way a call is entered only where there is room.
-/

namespace Clausal

namespace Machine

/-- The machine gets from the state to an answer, in finitely many steps. -/
def Completes (s : State) (outcome : Outcome) (i : Interpreter) : Prop :=
  ∃ t, Reaches s t ∧ step t = .done outcome i

theorem Completes.step {s t : State} {outcome : Outcome} {i : Interpreter}
    (hstep : Machine.step s = .next t) (h : Completes t outcome i) : Completes s outcome i := by
  obtain ⟨u, hreaches, hdone⟩ := h
  refine ⟨u, ?_, hdone⟩
  clear hdone
  induction hreaches with
  | start => exact .step .start hstep
  | step _ next ih => exact ih.step next

theorem completes_run (s : State) : Completes s (run s).1 (run s).2 := by
  have hends := ends s
  induction hends with
  | intro s _ ih =>
      cases hstep : step s with
      | next t =>
          rw [run_of_next hstep]
          exact (ih t hstep).step hstep
      | done outcome i =>
          rw [run_of_done hstep]
          exact ⟨s, .start, hstep⟩

/-- The active calls are no more than the stack takes. -/
def State.Fits (s : State) : Prop := s.interpreter.stack.depth ≤ s.interpreter.stack.capacity

/-- A step enters a call where there is room, and the room is always the same. -/
theorem fits_of_step {s t : State} (hs : s.Fits) (h : step s = .next t) :
    t.Fits ∧ t.interpreter.stack.limit = s.interpreter.stack.limit := by
  simp only [State.Fits] at hs ⊢
  cases effect_of_step h with
  | keeps same calls =>
      rw [same]
      exact ⟨hs, rfl⟩
  | enters frame stack locals push now calls =>
      obtain ⟨hdepth, hcapacity, hroom⟩ := CallStack.depth_push? push
      rw [now]
      refine ⟨?_, CallStack.limit_push? push⟩
      simp only
      omega
  | leaves saved now calls =>
      rw [now]
      exact ⟨Nat.le_trans (Nat.sub_le _ 1) hs, rfl⟩

theorem Reaches.fits {s t : State} (h : Reaches s t) (hs : s.Fits) :
    t.Fits ∧ t.interpreter.stack.limit = s.interpreter.stack.limit := by
  induction h with
  | start => exact ⟨hs, rfl⟩
  | step _ next ih =>
      obtain ⟨hfits, hlimit⟩ := fits_of_step ih.1 next
      exact ⟨hfits, hlimit.trans ih.2⟩

end Machine

namespace Interpreter

/-- A statement comes to an end with an answer: the machine completes what it has to evaluate. -/
inductive Executes (i : Interpreter) : Statement → Outcome → Interpreter → Prop
  | define (typeName name : String) (init : Expr) (s : Span) {answer : Outcome × Interpreter}
      (h : Machine.Completes ⟨.evaluate init, [], i⟩ answer.1 answer.2) :
      Executes i (.define typeName name init s) (bind name answer).1 (bind name answer).2
  | function (d : FunctionDecl) (s : Span) :
      Executes i (.function d s) (.ok (.function (.ofDecl d)))
        { i with env := i.env.defineGlobal d.name (.function (.ofDecl d)) }
  | expression (e : Expr) (s : Span) {outcome : Outcome} {j : Interpreter}
      (h : Machine.Completes ⟨.evaluate e, [], i⟩ outcome j) :
      Executes i (.expression e s) outcome j
  | comment (text : String) (s : Span) : Executes i (.comment text s) (.ok .null) i

/-- Statements come to an end one after the other, up to the first that fails. -/
inductive ExecutesAll : Interpreter → Value → List Statement → Outcome → Interpreter → Prop
  | nil (i : Interpreter) (last : Value) : ExecutesAll i last [] (.ok last) i
  | fails {i j : Interpreter} (last : Value) {s : Statement} (ss : List Statement) {e : EvalError}
      (h : Executes i s (.error e) j) : ExecutesAll i last (s :: ss) (.error e) j
  | next {i j k : Interpreter} (last : Value) {s : Statement} {ss : List Statement} {v : Value}
      {outcome : Outcome} (h : Executes i s (.ok v) j) (later : ExecutesAll j v ss outcome k) :
      ExecutesAll i last (s :: ss) outcome k

theorem executes_runStatement (i : Interpreter) (s : Statement) :
    Executes i s (i.runStatement s).1 (i.runStatement s).2 := by
  cases s with
  | define typeName name init s => exact .define typeName name init s (Machine.completes_run _)
  | function d s => exact .function d s
  | expression e s => exact .expression e s (Machine.completes_run _)
  | comment text s => exact .comment text s

theorem executesAll_runFrom (i : Interpreter) (last : Value) (ss : List Statement) :
    ExecutesAll i last ss (i.runFrom last ss).1 (i.runFrom last ss).2 := by
  induction ss generalizing i last with
  | nil => exact .nil i last
  | cons s ss ih =>
      have hs := executes_runStatement i s
      simp only [runFrom]
      cases hanswer : i.runStatement s with
      | mk outcome j =>
          rw [hanswer] at hs
          cases outcome with
          | ok v => exact .next last hs (ih j v)
          | error e => exact .fails last ss hs

/-- No more calls are active in the interpreter than its stack takes. -/
def Fits (i : Interpreter) : Prop := i.stack.depth ≤ i.stack.capacity

theorem Visits.fits {i : Interpreter} {op : Operation} {m : Machine.State} (h : Visits i op m)
    (hi : i.Fits) : m.Fits ∧ m.interpreter.stack.limit = i.stack.limit := by
  induction h with
  | expression h | call h => exact h.fits hi
  | statement _ ih | define _ ih | first _ ih => exact ih hi
  | @later i j s ss v m before h ih =>
      have hstack := stack_of_runStatement before
      have hj : j.Fits := by
        rw [Fits, hstack]
        exact hi
      rw [← hstack]
      exact ih hj

/-- With a finite limit everything comes to an end. From every interpreter with no more active
calls than its limit, an expression, a call and a program have an answer after finitely many
steps, which is the one that is returned, and at no moment are more calls active. -/
theorem evaluation_completes {n : Nat} {i : Interpreter} (hlimit : i.limit = some n)
    (hframes : i.stack.frames.length ≤ n) :
    (∀ e : Expr, Machine.Completes ⟨.evaluate e, [], i⟩ (i.evaluate e).1 (i.evaluate e).2) ∧
    (∀ (f : FunctionValue) (args : List Value) (site : Option Span),
      Machine.Completes ⟨.invoke f args site, [], i⟩ (i.call f args site).1
        (i.call f args site).2) ∧
    (∀ p : Program,
      ExecutesAll i .null p.statements (i.runProgram p).1 (i.runProgram p).2) ∧
    ∀ (op : Operation) (m : Machine.State), Visits i op m →
      m.interpreter.stack.frames.length ≤ n := by
  have hcapacity {s : CallStack} (hs : s.limit = some n) : s.capacity = n := by
    rw [CallStack.capacity, hs]
    rfl
  have hi : i.Fits := by
    rw [Fits, i.stack.depth_eq, hcapacity hlimit]
    exact hframes
  refine ⟨fun e => Machine.completes_run _, fun f args site => Machine.completes_run _,
    fun p => executesAll_runFrom i .null p.statements, fun op m hvisits => ?_⟩
  obtain ⟨hfits, hsame⟩ := hvisits.fits hi
  rw [Machine.State.Fits, hcapacity (hsame.trans hlimit)] at hfits
  rw [← m.interpreter.stack.depth_eq]
  exact hfits

/-- A function that applies its argument to itself. -/
private def selfApplying : FunctionValue :=
  .anonymous (.always [⟨"f", .point 0⟩]
    (.call (.ident "f" (.point 0)) [.ident "f" (.point 0)] (.point 0)))

/-- The function applied to itself goes on for ever, but for the limit. -/
private def selfApplication : Expr :=
  .call (.ident "w" (.point 0)) [.ident "w" (.point 0)] (.point 0)

theorem evaluation_completes_selfApplication :
    let i : Interpreter :=
      ⟨⟨.ofList [("w", .function selfApplying)], some .empty⟩, ⟨[⟨"g", none⟩], some 3, 1, rfl⟩⟩
    i.limit = some 3 ∧ i.stack.frames.length ≤ 3 ∧
      (∃ outcome, Machine.Completes ⟨.evaluate selfApplication, [], i⟩ outcome i) ∧
      ∀ m, Visits i (.expression selfApplication) m → m.interpreter.stack.frames.length ≤ 3 := by
  intro i
  have hlimit : i.limit = some 3 := rfl
  have hframes : i.stack.frames.length ≤ 3 := by decide
  obtain ⟨hexpression, -, -, hvisits⟩ := evaluation_completes hlimit hframes
  have hcompletes := hexpression selfApplication
  rw [evaluate_interpreter] at hcompletes
  exact ⟨hlimit, hframes, ⟨_, hcompletes⟩, hvisits (.expression selfApplication)⟩

end Interpreter

end Clausal
