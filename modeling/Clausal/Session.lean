import Clausal.Failure
import Clausal.Session.Config

/-!
Sessions. Inputs are run one after the other on one interpreter. What ran before a failure keeps
its effect; a fatal failure takes every binding away.
-/

namespace Clausal

structure Session where
  config : Config
  interpreter : Interpreter

namespace Session

def new (config : Config) : Session := ⟨config, config.interpreter⟩

def reset (s : Session) : Session := new s.config

/-- Runs statements after one whose value is given, up to the first that fails. -/
def runFrom (last : Value) (s : Session) : List Statement → Except Failure Value × Session
  | [] => (.ok last, s)
  | statement :: rest =>
    match s.interpreter.runStatement statement with
    | (.ok v, i) => runFrom v { s with interpreter := i } rest
    | (.error e, i) =>
      let failure := Failure.runtime e
      let s := { s with interpreter := i }
      (.error failure, if failure.isFatal then s.reset else s)

/-- Runs an input; its value is that of its last statement. -/
def eval (s : Session) (input : String) : Except Failure Value × Session :=
  match parseSource input with
  | .error e => (.error e, s)
  | .ok program => runFrom .null s program.statements

/-- The statements run as they do on the interpreter alone, but for what a fatal failure takes
away. -/
theorem runFrom_eq (last : Value) (s : Session) (ss : List Statement) :
    s.runFrom last ss =
      match s.interpreter.runFrom last ss with
      | (.ok v, i) => (.ok v, { s with interpreter := i })
      | (.error e, i) =>
        (.error (.runtime e), if e.isFatal then s.reset else { s with interpreter := i }) := by
  induction ss generalizing last s with
  | nil => rfl
  | cons statement rest ih =>
      rw [runFrom, Interpreter.runFrom]
      obtain ⟨outcome, i⟩ := s.interpreter.runStatement statement
      cases outcome with
      | ok v => exact ih v { s with interpreter := i }
      | error e => rfl

theorem eval_eq (s : Session) (input : String) :
    s.eval input =
      match parseSource input with
      | .error e => (.error e, s)
      | .ok program =>
        match s.interpreter.runProgram program with
        | (.ok v, i) => (.ok v, { s with interpreter := i })
        | (.error e, i) =>
          (.error (.runtime e), if e.isFatal then s.reset else { s with interpreter := i }) := by
  rw [eval]
  cases parseSource input with
  | error e => rfl
  | ok program => exact runFrom_eq .null s program.statements

/-- An input leaves the session as it was, with its program run, or anew after a fatal failure. -/
theorem eval_session_cases (s : Session) (input : String) :
    (s.eval input).2 = s ∨ (s.eval input).2 = s.reset ∨
      ∃ p, parseSource input = .ok p ∧
        (s.eval input).2 = { s with interpreter := (s.interpreter.runProgram p).2 } := by
  rw [eval_eq]
  cases hp : parseSource input with
  | error e => exact .inl rfl
  | ok p =>
      dsimp only
      cases hrun : s.interpreter.runProgram p with
      | mk outcome i =>
          cases outcome with
          | ok v => exact .inr (.inr ⟨p, rfl, by rw [hrun]⟩)
          | error e =>
              dsimp only
              split
              · exact .inr (.inl rfl)
              · exact .inr (.inr ⟨p, rfl, by rw [hrun]⟩)

/-- The names of the globals with the texts of their values, in the order of the names. -/
def vars (s : Session) : List (String × String) :=
  s.interpreter.globals.bindings.map fun (name, value) => (name, value.text)

end Session

/-- The number of open brackets after a token. It is kept in 32 bits and wraps around where it
leaves them; with overflow checks the program stops there instead. -/
def Token.Kind.count (depth : Int32) : Token.Kind → Int32
  | leftParen | leftBracket | leftBrace => depth + 1
  | rightParen | rightBracket | rightBrace => depth - 1
  | _ => depth

/-- The number of open brackets after the word, as it is counted. -/
def bracketCount (w : List Token) : Int32 := w.foldl (fun depth t => t.kind.count depth) 0

/-- Whether an input can be run, by a test of its brackets: they pass, and the last token ends a
statement. An input with a lexical error is not worth waiting for. -/
def isInputCompleteBy (closed : List Token → Bool) (input : String) : Bool :=
  match lexSource input with
  | .error _ => true
  | .ok tokens =>
    match tokens.getLast? with
    | none => true
    | some last => closed tokens && (last.kind == .semicolon || last.kind == .comment)

/-- Whether an input can be run: no bracket is open as they are counted, and the last token ends a
statement. -/
def isInputComplete (input : String) : Bool := isInputCompleteBy (bracketCount · ≤ 0) input

end Clausal
