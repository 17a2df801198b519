import Mathlib
import Clausal.Proofs.Evaluation.Relabeling

/-!
Programs without labels. What a program does depends on neither its spans, nor the spellings of its
literals, nor the types that it declares: two programs that differ in these alone have the same
values and bindings, up to the labels in function bodies, or fail for the same reason in the same
calls.
-/

namespace Clausal

mutual

def Expr.unlabeled : Expr → Expr
  | .number value _ _ => .number value "" (.point 0)
  | .string value _ _ => .string value "" (.point 0)
  | .boolean value _ _ => .boolean value "" (.point 0)
  | .tuple es _ => .tuple (Expr.unlabeledOfList es) (.point 0)
  | .ident name _ => .ident name (.point 0)
  | .binary op a b _ => .binary op a.unlabeled b.unlabeled (.point 0)
  | .unary op a _ => .unary op a.unlabeled (.point 0)
  | .call callee args _ => .call callee.unlabeled (Expr.unlabeledOfList args) (.point 0)
  | .matching params clauses _ =>
    .matching (params.map (·.bare)) (Clause.unlabeledOfList clauses) (.point 0)

def Expr.unlabeledOfList : List Expr → List Expr
  | [] => []
  | e :: es => e.unlabeled :: Expr.unlabeledOfList es

def Clause.unlabeled : Clause → Clause
  | .guarded condition body _ => .guarded condition.unlabeled body.unlabeled (.point 0)
  | .catchAll body _ => .catchAll body.unlabeled (.point 0)

def Clause.unlabeledOfList : List Clause → List Clause
  | [] => []
  | c :: cs => c.unlabeled :: Clause.unlabeledOfList cs

end

theorem Expr.unlabeledOfList_eq (es : List Expr) :
    Expr.unlabeledOfList es = es.map (·.unlabeled) := by
  induction es with
  | nil => rfl
  | cons e es ih => rw [Expr.unlabeledOfList, ih, List.map_cons]

theorem Clause.unlabeledOfList_eq (cs : List Clause) :
    Clause.unlabeledOfList cs = cs.map (·.unlabeled) := by
  induction cs with
  | nil => rfl
  | cons c cs ih => rw [Clause.unlabeledOfList, ih, List.map_cons]

def Match.unlabeled (m : Match) : Match where
  params := m.params.map (·.bare)
  clauses := m.clauses.map (·.unlabeled)
  span := .point 0

/-- The declared types are forgotten as well. -/
def FunctionDecl.unlabeled (d : FunctionDecl) : FunctionDecl :=
  ⟨d.name, [], "", d.params, d.body.unlabeled⟩

def Statement.unlabeled : Statement → Statement
  | .define _ name init _ => .define "" name init.unlabeled (.point 0)
  | .function d _ => .function d.unlabeled (.point 0)
  | .expression e _ => .expression e.unlabeled (.point 0)
  | .comment text _ => .comment text (.point 0)

/-- The program without spans, spellings of literals and declared types. -/
def Program.unlabeled (p : Program) : Program := ⟨p.statements.map (·.unlabeled)⟩

namespace Relabeling

def forgetting : Relabeling where
  span := Span.erased
  expr := Expr.unlabeled
  clause := Clause.unlabeled
  number _ _ _ := ⟨"", rfl⟩
  string _ _ _ := ⟨"", rfl⟩
  boolean _ _ _ := ⟨"", rfl⟩
  tuple es _ := by
    rw [Expr.unlabeled, Expr.unlabeledOfList_eq]
    rfl
  ident _ _ := rfl
  binary _ _ _ _ := rfl
  unary _ _ _ := rfl
  call f args _ := by
    rw [Expr.unlabeled, Expr.unlabeledOfList_eq]
    rfl
  matching params clauses _ := by
    rw [Expr.unlabeled, Clause.unlabeledOfList_eq]
    rfl
  guarded _ _ _ := rfl
  catchAll _ _ := rfl

end Relabeling

def Value.unlabeled (v : Value) : Value := Relabeling.forgetting.value v

def Scope.unlabeled (s : Scope) : Scope := Relabeling.forgetting.scope s

/-- The names of the active calls that are shown, and how many are not. -/
def Backtrace.names (b : Backtrace) : List String × Nat := (b.frames.map (·.name), b.omitted)

theorem Relabeling.names_backtrace (r : Relabeling) (b : Backtrace) :
    (r.backtrace b).names = b.names := by
  simp [backtrace, Backtrace.names, frame, Function.comp_def]

namespace Interpreter

variable {i : Interpreter}

/-- A statement does not look at the types that it declares. -/
theorem runStatement_unlabeled (s : Statement) :
    i.runStatement s.unlabeled = i.runStatement (Relabeling.forgetting.statement s) := by
  cases s <;> rfl

theorem runFrom_unlabeled (last : Value) (ss : List Statement) :
    i.runFrom last (ss.map (·.unlabeled)) =
      i.runFrom last (ss.map Relabeling.forgetting.statement) := by
  induction ss generalizing i last with
  | nil => rfl
  | cons s ss ih =>
      simp only [List.map_cons, runFrom, runStatement_unlabeled]
      obtain ⟨outcome, j⟩ := i.runStatement (Relabeling.forgetting.statement s)
      cases outcome with
      | ok v => exact ih v
      | error e => rfl

/-- Without its labels a program has the answer that it has with them, up to labels. -/
theorem runProgram_unlabeled_answer (limit : Option Nat) (p : Program) :
    (new limit).runProgram p.unlabeled =
      Relabeling.forgetting.answer ((new limit).runProgram p) :=
  (runFrom_unlabeled .null p.statements).trans
    (Relabeling.forgetting.runFrom_statement (new limit) .null p.statements)

/-- Outcomes that are equal up to labels are values that are, or failures with one cause in calls
of the same names. -/
theorem eq_up_to_labels {outcome outcome' : Outcome}
    (h : Relabeling.forgetting.outcome outcome = Relabeling.forgetting.outcome outcome') :
    (∃ v w, outcome = .ok v ∧ outcome' = .ok w ∧ v.unlabeled = w.unlabeled) ∨
      ∃ e e', outcome = .error e ∧ outcome' = .error e' ∧ e.cause = e'.cause ∧
        e.backtrace.map (·.names) = e'.backtrace.map (·.names) := by
  cases outcome with
  | ok v =>
      cases outcome' with
      | ok w => exact .inl ⟨v, w, rfl, rfl, Except.ok.inj h⟩
      | error e' => cases h
  | error e =>
      cases outcome' with
      | ok w => cases h
      | error e' =>
          have herror : Relabeling.forgetting.error e = Relabeling.forgetting.error e' :=
            Except.error.inj h
          have hcause := congrArg EvalError.cause herror
          have hbacktrace := congrArg (·.backtrace.map (·.names)) herror
          refine .inr ⟨e, e', rfl, rfl, hcause, ?_⟩
          simpa [Relabeling.error, Function.comp_def, Relabeling.names_backtrace] using hbacktrace

/-- Programs that are equal but for spans, spellings of literals and declared types do the same
with every limit. The globals in the end are equal up to labels, and so are the values; if one
program fails, the other fails with the same cause, in calls of the same names. -/
theorem runProgram_unlabeled {p q : Program} (h : p.unlabeled = q.unlabeled)
    (limit : Option Nat) :
    ((new limit).runProgram p).2.globals.unlabeled =
        ((new limit).runProgram q).2.globals.unlabeled ∧
      ((∃ v w, ((new limit).runProgram p).1 = .ok v ∧ ((new limit).runProgram q).1 = .ok w ∧
        v.unlabeled = w.unlabeled) ∨
      ∃ e e', ((new limit).runProgram p).1 = .error e ∧
        ((new limit).runProgram q).1 = .error e' ∧ e.cause = e'.cause ∧
        e.backtrace.map (·.names) = e'.backtrace.map (·.names)) := by
  have hanswer : Relabeling.forgetting.answer ((new limit).runProgram p) =
      Relabeling.forgetting.answer ((new limit).runProgram q) := by
    rw [← runProgram_unlabeled_answer, h, runProgram_unlabeled_answer]
  obtain ⟨houtcome, hinterpreter⟩ := Prod.mk.inj hanswer
  exact ⟨congrArg Interpreter.globals hinterpreter, eq_up_to_labels houtcome⟩

/-- Declares a function that fails, with these labels, and evaluates an expression. -/
private def failing (place : Span) (raw typeName : String) (e : Expr) : Program :=
  ⟨[.function ⟨"f", [typeName], typeName, ["x"], .always [⟨"x", place⟩]
      (.tuple [.number 1 raw place, .ident "missing" place] place)⟩ place,
    .expression e place]⟩

/-- The function of one program, and the failure of a call of it, known from the other program. -/
theorem runProgram_unlabeled_failing :
    let f (place : Span) : Expr := .ident "f" place
    let call (place : Span) : Expr := .call (f place) [.string "s" "'s'" place] place
    let p (e : Expr) : Program := failing (.point 0) "1" "number" e
    let q (e : Expr) : Program := failing ⟨3, 7⟩ "1.0" "mine" e
    (p (f (.point 0))).unlabeled = (q (f ⟨3, 7⟩)).unlabeled ∧
    (∃ g, ((new (some 1)).runProgram (q (f ⟨3, 7⟩))).1 = .ok (.function g) ∧ g.name = "f") ∧
    (p (call (.point 0))).unlabeled = (q (call ⟨3, 7⟩)).unlabeled ∧
    ∃ e b, ((new (some 1)).runProgram (q (call ⟨3, 7⟩))).1 = .error e ∧
      e.cause = .undefinedVariable "missing" ∧ e.backtrace = some b ∧ b.names = (["f"], 0) := by
  intro f call p q
  have hfunction : (p (f (.point 0))).unlabeled = (q (f ⟨3, 7⟩)).unlabeled := by rfl
  have hcall : (p (call (.point 0))).unlabeled = (q (call ⟨3, 7⟩)).unlabeled := by rfl
  have hvalue : ((new (some 1)).runProgram (p (f (.point 0)))).1 = .ok (.function ⟨"f", ["x"],
      .always [⟨"x", .point 0⟩] (.tuple [.number 1 "1" (.point 0), .ident "missing" (.point 0)]
        (.point 0))⟩) := by
    cbv
  have herror : ((new (some 1)).runProgram (p (call (.point 0)))).1 =
      .error ⟨.undefinedVariable "missing", some (.point 0),
        some ⟨[⟨"f", some (.point 0)⟩], 0⟩⟩ := by
    cbv
  refine ⟨hfunction, ?_, hcall, ?_⟩
  · obtain ⟨-, ⟨v, w, hv, hw, hlabels⟩ | ⟨e, e', he, -⟩⟩ :=
      runProgram_unlabeled hfunction (some 1)
    · cases hv.symm.trans hvalue
      cases w with
      | function g => exact ⟨g, hw, (congrArg FunctionValue.name (Value.function.inj hlabels)).symm⟩
      | _ => cases hlabels
    · cases he.symm.trans hvalue
  · obtain ⟨-, ⟨v, w, hv, -⟩ | ⟨e, e', he, he', hcause, hnames⟩⟩ :=
      runProgram_unlabeled hcall (some 1)
    · cases hv.symm.trans herror
    · cases he.symm.trans herror
      obtain ⟨b, hb, hnames⟩ := Option.map_eq_some_iff.mp hnames.symm
      exact ⟨e', b, he', hcause.symm, hb, hnames⟩

end Interpreter

end Clausal
