import Clausal.Evaluation.Termination

/-!
Running programs. Statements are run in order against the globals: a declaration binds a global
and has its value, an expression has its value, and a comment has none. A run ends at the first
statement that fails, and what was bound before stays bound.
-/

namespace Clausal

namespace Machine

instance : WellFoundedRelation State where
  rel t s := step s = .next t
  wf := ⟨ends⟩

def run (s : State) : Outcome × Interpreter :=
  match _h : step s with
  | .next t => run t
  | .done outcome i => (outcome, i)
termination_by s

theorem run_of_next {s t : State} (h : step s = .next t) : run s = run t := by
  rw [run]
  split
  · next u hu => rw [Step.next.inj (h.symm.trans hu)]
  · next hu => cases h.symm.trans hu

theorem run_of_done {s : State} {o : Outcome} {i : Interpreter} (h : step s = .done o i) :
    run s = (o, i) := by
  rw [run]
  split
  · next hu => cases h.symm.trans hu
  · next hu =>
    cases h.symm.trans hu
    rfl

end Machine

namespace Interpreter

def defaultLimit : Nat := 10000

def new (limit : Option Nat) : Interpreter := ⟨.empty, .empty limit⟩

def globals (i : Interpreter) : Scope := i.env.globals

def limit (i : Interpreter) : Option Nat := i.stack.limit

def reset (i : Interpreter) : Interpreter := ⟨.empty, i.stack.clear⟩

def evaluate (i : Interpreter) (e : Expr) : Outcome × Interpreter :=
  Machine.run ⟨.evaluate e, [], i⟩

/-- Calls a function with values; the site is where the call is made, if anywhere. -/
def call (i : Interpreter) (f : FunctionValue) (args : List Value) (site : Option Span) :
    Outcome × Interpreter :=
  Machine.run ⟨.invoke f args site, [], i⟩

/-- Binds a global to the value of an answer, if it has one. -/
def bind (name : String) : Outcome × Interpreter → Outcome × Interpreter
  | (.ok v, i) => (.ok v, { i with env := i.env.defineGlobal name v })
  | answer => answer

def runStatement (i : Interpreter) : Statement → Outcome × Interpreter
  | .define _ name init _ => bind name (i.evaluate init)
  | .function d _ => bind d.name (.ok (.function (.ofDecl d)), i)
  | .expression e _ => i.evaluate e
  | .comment _ _ => (.ok .null, i)

/-- Runs statements after one whose value is given, up to the first that fails. -/
def runFrom (last : Value) (i : Interpreter) : List Statement → Outcome × Interpreter
  | [] => (.ok last, i)
  | s :: rest =>
    match i.runStatement s with
    | (.ok v, i) => runFrom v i rest
    | (.error e, i) => (.error e, i)

/-- The value of a program is that of its last statement. -/
def runProgram (i : Interpreter) (p : Program) : Outcome × Interpreter :=
  runFrom .null i p.statements

end Interpreter

end Clausal
