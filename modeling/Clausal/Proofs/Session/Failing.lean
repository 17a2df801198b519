import Mathlib
import Clausal.Proofs.Evaluation.Purity
import Clausal.Session

/-!
What is left of a session when an input fails. An input that is not read leaves everything as it
was. Of one that is read, the statements before the first that fails keep their effect, and the
failing one has none; only a call that finds no room takes all bindings away. The statements are
run one by one against the session, and this gives what the interpreter gives for the program.
-/

namespace Clausal

namespace Interpreter

/-- The interpreter after some statements, whatever became of each of them. -/
def afterAll (i : Interpreter) (ss : List Statement) : Interpreter :=
  ss.foldl (fun i s => (i.runStatement s).2) i

/-- The statement with this number fails, and those before it have values. -/
structure FailsAt (i : Interpreter) (ss : List Statement) (k : Nat) (e : EvalError) : Prop where
  before : ∀ m < k, ∀ s, ss[m]? = some s →
    ∃ v, ((i.afterAll (ss.take m)).runStatement s).1 = .ok v
  fails : ∃ s, ss[k]? = some s ∧ ((i.afterAll (ss.take k)).runStatement s).1 = .error e

variable {i j : Interpreter} {s : Statement} {ss : List Statement} {e : EvalError}

theorem failsAt_zero : i.FailsAt (s :: ss) 0 e ↔ (i.runStatement s).1 = .error e := by
  constructor
  · rintro ⟨-, s', hs, hfails⟩
    cases hs
    exact hfails
  · exact fun h => ⟨fun m hm => absurd hm (Nat.not_lt_zero m), s, rfl, h⟩

theorem failsAt_succ {v : Value} {k : Nat} (h : i.runStatement s = (.ok v, j)) :
    i.FailsAt (s :: ss) (k + 1) e ↔ j.FailsAt ss k e := by
  -- The statements before number `m + 1` are the first one, which leads to `j`, and `m` others.
  have hafter (m : Nat) : i.afterAll ((s :: ss).take (m + 1)) = j.afterAll (ss.take m) := by
    rw [List.take_succ_cons, afterAll, List.foldl_cons, h]
    rfl
  constructor
  · rintro ⟨hbefore, hfails⟩
    rw [hafter k] at hfails
    refine ⟨fun m hm s' hs => ?_, hfails⟩
    have hvalue := hbefore (m + 1) (Nat.succ_lt_succ hm) s' hs
    rwa [hafter m] at hvalue
  · rintro ⟨hbefore, hfails⟩
    refine ⟨fun m hm s' hs => ?_, by rwa [hafter k]⟩
    cases m with
    | zero =>
        cases hs
        exact ⟨v, congrArg Prod.fst h⟩
    | succ m =>
        rw [hafter m]
        exact hbefore m (Nat.lt_of_succ_lt_succ hm) s' hs

/-- No statement fails after one that fails. -/
theorem not_failsAt_succ {e' : EvalError} {k : Nat} (h : (i.runStatement s).1 = .error e) :
    ¬ i.FailsAt (s :: ss) (k + 1) e' := by
  rintro ⟨hbefore, -⟩
  obtain ⟨v, hv⟩ := hbefore 0 (Nat.succ_pos k) s rfl
  cases h.symm.trans hv

/-- A run ends with the failure of the first statement that fails, and what this statement would
have done is not done. -/
theorem runFrom_of_failsAt {k : Nat} (h : i.FailsAt ss k e) (last : Value) :
    i.runFrom last ss = (.error e, i.afterAll (ss.take k)) := by
  induction ss generalizing i k last with
  | nil =>
      obtain ⟨s, hs, -⟩ := h.fails
      cases hs
  | cons s ss ih =>
      cases hs : i.runStatement s with
      | mk outcome j =>
          cases outcome with
          | error e' =>
              obtain rfl := runStatement_error hs
              cases k with
              | zero =>
                  rw [failsAt_zero, hs] at h
                  cases h
                  exact runFrom_cons_error hs last ss
              | succ k => exact absurd h (not_failsAt_succ (congrArg Prod.fst hs))
          | ok v =>
              cases k with
              | zero =>
                  rw [failsAt_zero, hs] at h
                  cases h
              | succ k =>
                  rw [runFrom_cons_ok hs, ih ((failsAt_succ hs).mp h) v, List.take_succ_cons,
                    afterAll, afterAll, List.foldl_cons, hs]

/-- A run in which no statement fails has a value. -/
theorem runFrom_of_not_failsAt (h : ∀ k e, ¬ i.FailsAt ss k e) (last : Value) :
    ∃ v, i.runFrom last ss = (.ok v, i.afterAll ss) := by
  induction ss generalizing i last with
  | nil => exact ⟨last, rfl⟩
  | cons s ss ih =>
      cases hs : i.runStatement s with
      | mk outcome j =>
          cases outcome with
          | error e => exact absurd (failsAt_zero.mpr (congrArg Prod.fst hs)) (h 0 e)
          | ok v =>
              obtain ⟨v', hv'⟩ := ih (fun k e hk => h (k + 1) e ((failsAt_succ hs).mpr hk)) v
              rw [runFrom_cons_ok hs, hv', afterAll, afterAll, List.foldl_cons, hs]
              exact ⟨v', rfl⟩

end Interpreter

theorem EvalError.isFatal_iff (e : EvalError) :
    e.isFatal = true ↔ ∃ n, e.cause = .stackOverflow n := by
  obtain ⟨cause, span, backtrace⟩ := e
  cases cause <;> simp [isFatal]

namespace Session

variable {s : Session} {input : String} {p : Program}

/-- An input answers what the interpreter answers for its program. -/
theorem eval_answer (hp : parseSource input = .ok p) :
    (s.eval input).1 = (s.interpreter.runProgram p).1.mapError .runtime := by
  rw [eval_eq, hp]
  dsimp only
  cases s.interpreter.runProgram p with
  | mk outcome i => cases outcome <;> rfl

theorem eval_of_failsAt (hp : parseSource input = .ok p) {k : Nat} {e : EvalError}
    (h : s.interpreter.FailsAt p.statements k e) :
    s.eval input = (.error (.runtime e), if e.isFatal then new s.config
      else { s with interpreter := s.interpreter.afterAll (p.statements.take k) }) := by
  rw [eval_eq, hp]
  dsimp only
  rw [Interpreter.runProgram, Interpreter.runFrom_of_failsAt h]
  rfl

/-- What an input answers and leaves behind. One that is not read changes nothing. The first
statement that fails gives the answer, and leaves what the statements before it have made of the
interpreter, but a call without room leaves a new session. Without a failing statement the answer
and the interpreter are those of the program. A new session answers as a run of the source does. -/
theorem eval_exact (s : Session) (input : String) :
    (∀ e, parseSource input = .error e → s.eval input = (.error e, s)) ∧
    (∀ p, parseSource input = .ok p →
      (∀ k e, s.interpreter.FailsAt p.statements k e →
        (s.eval input).1 = .error (.runtime e) ∧
        ((∀ n, e.cause ≠ .stackOverflow n) → (s.eval input).2 =
          { s with interpreter := s.interpreter.afterAll (p.statements.take k) }) ∧
        ∀ n, e.cause = .stackOverflow n → (s.eval input).2 = new s.config) ∧
      ((∀ k e, ¬ s.interpreter.FailsAt p.statements k e) → ∃ v i,
        s.interpreter.runProgram p = (.ok v, i) ∧
          s.eval input = (.ok v, { s with interpreter := i })) ∧
      (s.eval input).1 = (s.interpreter.runProgram p).1.mapError .runtime) ∧
    ∀ config, ((new config).eval input).1 = runSource input config.maxDepth := by
  refine ⟨fun e he => ?_, fun p hp => ⟨fun k e h => ?_, fun h => ?_, eval_answer hp⟩,
    fun config => ?_⟩
  · rw [eval, he]
  · rw [eval_of_failsAt hp h]
    refine ⟨rfl, fun hcause => if_neg fun hfatal => ?_, fun n hn => if_pos ?_⟩
    · obtain ⟨n, hn⟩ := e.isFatal_iff.mp hfatal
      exact hcause n hn
    · exact e.isFatal_iff.mpr ⟨n, hn⟩
  · obtain ⟨v, hv⟩ := Interpreter.runFrom_of_not_failsAt h .null
    refine ⟨v, _, hv, ?_⟩
    rw [eval_eq, hp]
    dsimp only
    rw [Interpreter.runProgram, hv]
  · cases hp : parseSource input with
    | error e =>
        rw [eval, runSource, hp]
        rfl
    | ok p =>
        rw [eval_answer hp, runSource, hp]
        rfl

/-- A session with a limit, in which `f` is the given value, if any. -/
private def binding (limit : Nat) (f : List Value) : Session :=
  ⟨⟨some limit, .auto⟩, ⟨⟨.ofList (f.map ("f", ·)), none⟩, .empty (some limit)⟩⟩

private def alwaysTrue : Value :=
  .function ⟨"f", [], .always [] (.boolean true "true" (.point 0))⟩

private def definesAndCalls : Program :=
  ⟨[.define "bool" "a" (.boolean true "true" ⟨9, 13⟩) ⟨0, 14⟩,
    .expression (.call (.ident "f" ⟨15, 16⟩) [] ⟨15, 18⟩) ⟨15, 19⟩]⟩

private def definesAndCallsText : String := "bool a = true; f();"

/-- The same input without `f`, without room for the call, and with room for it; and an input that
breaks off. -/
theorem eval_exact_definesAndCalls :
    parseSource definesAndCallsText = .ok definesAndCalls ∧
    (∃ e, (binding 1 []).interpreter.FailsAt definesAndCalls.statements 1 e ∧
      e.cause = .undefinedVariable "f" ∧
      ((binding 1 []).eval definesAndCallsText).2.vars = [("a", "true")]) ∧
    (∃ e, (binding 0 [alwaysTrue]).interpreter.FailsAt definesAndCalls.statements 1 e ∧
      e.cause = .stackOverflow 0 ∧
      ((binding 0 [alwaysTrue]).eval definesAndCallsText).2 = new ⟨some 0, .auto⟩) ∧
    ((∀ k e, ¬ (binding 1 [alwaysTrue]).interpreter.FailsAt definesAndCalls.statements k e) ∧
      ((binding 1 [alwaysTrue]).eval definesAndCallsText).1 = .ok (.boolean true)) ∧
    ∃ e, parseSource "f(" = .error e ∧ (binding 1 []).eval "f(" = (.error e, binding 1 []) := by
  have hitems : (TokenStream.ofSource definesAndCallsText).items =
      [.ok ⟨.typeName, "bool", ⟨0, 4⟩⟩, .ok ⟨.identifier, "a", ⟨5, 6⟩⟩,
        .ok ⟨.assign, "=", ⟨7, 8⟩⟩, .ok ⟨.boolean, "true", ⟨9, 13⟩⟩,
        .ok ⟨.semicolon, ";", ⟨13, 14⟩⟩, .ok ⟨.identifier, "f", ⟨15, 16⟩⟩,
        .ok ⟨.leftParen, "(", ⟨16, 17⟩⟩, .ok ⟨.rightParen, ")", ⟨17, 18⟩⟩,
        .ok ⟨.semicolon, ";", ⟨18, 19⟩⟩] := by
    decide +kernel
  have hbroken : (TokenStream.ofSource "f(").items =
      [.ok ⟨.identifier, "f", ⟨0, 1⟩⟩, .ok ⟨.leftParen, "(", ⟨1, 2⟩⟩] := by
    decide +kernel
  have hparse : parseSource definesAndCallsText = .ok definesAndCalls := by
    rw [parseSource, Program.parse, Program.ofStream, hitems]
    rfl
  have herror : ∃ e, parseSource "f(" = .error e := by
    rw [parseSource, Program.parse, Program.ofStream, hbroken]
    exact ⟨_, rfl⟩
  have hdefine (i : Interpreter) :
      i.runStatement (.define "bool" "a" (.boolean true "true" ⟨9, 13⟩) ⟨0, 14⟩) =
        (.ok (.boolean true), { i with env := i.env.defineGlobal "a" (.boolean true) }) := by
    have hvalue : i.evaluate (.boolean true "true" ⟨9, 13⟩) = (.ok (.boolean true), i) :=
      (Machine.run_of_next rfl).trans ((Machine.run_of_next rfl).trans (Machine.run_of_done rfl))
    rw [Interpreter.runStatement, hvalue]
    rfl
  obtain ⟨-, hrun, -⟩ := eval_exact (binding 1 []) definesAndCallsText
  obtain ⟨-, hnoRoom, -⟩ := eval_exact (binding 0 [alwaysTrue]) definesAndCallsText
  obtain ⟨-, hroom, -⟩ := eval_exact (binding 1 [alwaysTrue]) definesAndCallsText
  have hunbound : (binding 1 []).interpreter.FailsAt definesAndCalls.statements 1
      ⟨.undefinedVariable "f", some ⟨15, 16⟩, none⟩ :=
    (Interpreter.failsAt_succ (hdefine _)).mpr (Interpreter.failsAt_zero.mpr (by cbv))
  have hoverflow : (binding 0 [alwaysTrue]).interpreter.FailsAt definesAndCalls.statements 1
      ⟨.stackOverflow 0, some ⟨15, 18⟩, none⟩ :=
    (Interpreter.failsAt_succ (hdefine _)).mpr (Interpreter.failsAt_zero.mpr (by cbv))
  have hvalue : ((binding 1 [alwaysTrue]).interpreter.runProgram definesAndCalls).1 =
      .ok (.boolean true) := by
    cbv
  have hnoFailure : ∀ k e,
      ¬ (binding 1 [alwaysTrue]).interpreter.FailsAt definesAndCalls.statements k e := by
    intro k e h
    rw [Interpreter.runProgram, Interpreter.runFrom_of_failsAt h] at hvalue
    cases hvalue
  refine ⟨hparse, ⟨_, hunbound, rfl, ?_⟩, ⟨_, hoverflow, rfl, ?_⟩, ⟨hnoFailure, ?_⟩, ?_⟩
  · rw [((hrun _ hparse).1 _ _ hunbound).2.1 (by rintro n ⟨⟩)]
    cbv
  · exact ((hnoRoom _ hparse).1 _ _ hoverflow).2.2 0 rfl
  · obtain ⟨v, i, hprogram, heval⟩ := (hroom _ hparse).2.1 hnoFailure
    rw [hprogram] at hvalue
    rw [heval]
    cases hvalue
    rfl
  · obtain ⟨e, he⟩ := herror
    exact ⟨e, he, (eval_exact (binding 1 []) "f(").1 e he⟩

end Session

end Clausal
