import Mathlib
import Clausal.CommandLine
import Clausal.Proofs.Evaluation.Values
import Clausal.Proofs.Tree.Reprinting

/-!
What a session can come to hold. Whatever some sources are run for, in whatever order and with
whatever failures, all values are made from what is written in them: none is null, no tuple is too
short, and the body of every function is a match that stands in a source. So a program has the
value null only where it has no value to give, and then nothing is printed.
-/

namespace Clausal

/-- The expression is part of one of the sources. -/
def Expr.WrittenIn (sources : List String) (e : Expr) : Prop :=
  ∃ source ∈ sources, ∃ p, parseSource source = .ok p ∧ e ∈ p.parts

/-- Nothing is in the program, or a comment is the last thing in it. -/
def Program.Silent (p : Program) : Prop :=
  p.statements = [] ∨ ∃ s, p.statements.getLast? = some s ∧ s.IsComment

/-- What is asked for stands in the sources, but for values, which are made from what does. -/
def Interpreter.Operation.ReadFrom (sources : List String) : Operation → Prop
  | .program p => ∃ source ∈ sources, parseSource source = .ok p
  | .statement s => ∃ source ∈ sources, ∃ p, parseSource source = .ok p ∧ s ∈ p.statements
  | .expression e => e.WrittenIn sources
  | .call f args _ =>
    (Value.function f).Regular (Expr.WrittenIn sources) ∧
      ∀ v ∈ args, v.Regular (Expr.WrittenIn sources)
  | .reset => True

section Sources

variable {source : String} {sources : List String} {p : Program}

theorem wellFormed_of_parseSource (h : parseSource source = .ok p) : p.WellFormed :=
  Program.wellFormed_of_parse (parse_of_parseSource h)

theorem evaluable_writtenIn (sources : List String) :
    Expr.Evaluable (Expr.WrittenIn sources) := by
  constructor
  · refine Expr.Closed.of_cover fun e ⟨source, hsource, p, hp, he⟩ => ?_
    exact ⟨_, p.closed_mem_parts, he, fun x hx => ⟨source, hsource, p, hp, hx⟩⟩
  · rintro es s ⟨source, -, p, hp, he⟩
    exact ((wellFormed_of_parseSource hp).parts _ he).1

/-- A statement of a source has its parts in the source, and a function that it declares has the
parameters of its body. -/
theorem Statement.evaluable_of_parseSource (hsource : source ∈ sources)
    (h : parseSource source = .ok p) {s : Statement} (hs : s ∈ p.statements) :
    s.Evaluable (Expr.WrittenIn sources) := by
  have hwritten {e : Expr} (he : e.parts ⊆ s.parts) : e.WrittenIn sources :=
    ⟨source, hsource, p, h, Program.mem_parts hs (he e.mem_parts_self)⟩
  cases s with
  | define typeName name init span => exact hwritten (List.Subset.refl _)
  | function d span =>
      have hparams := (wellFormed_of_parseSource h _ hs).params
      exact .function hparams (hwritten (List.Subset.refl _))
  | expression e span => exact hwritten (List.Subset.refl _)
  | comment text span => trivial

theorem Interpreter.Operation.ReadFrom.evaluable {op : Operation} (h : op.ReadFrom sources) :
    op.Evaluable (Expr.WrittenIn sources) := by
  cases op with
  | program p =>
      obtain ⟨source, hsource, hp⟩ := h
      exact fun s hs => s.evaluable_of_parseSource hsource hp hs
  | statement s =>
      obtain ⟨source, hsource, p, hp, hs⟩ := h
      exact s.evaluable_of_parseSource hsource hp hs
  | expression e => exact h
  | call f args site => exact h
  | reset => trivial

end Sources

namespace CommandLine

/-- A run prints nothing for null, and a line for any other value. -/
theorem perform_run_eq_nothing_iff {config : Config} {terminal : Bool} {path source : String}
    {v : Value} (h : runSource source config.maxDepth = .ok v) :
    (FileCommand.run.perform config terminal path (.ok source)).output = .nothing ↔ v = .null := by
  have hout : (FileCommand.run.perform config terminal path (.ok source)).output =
      ⟨if v.isNull then "" else v.text ++ "\n", ""⟩ := by
    simp only [FileCommand.perform, FileCommand.shown, h, Except.map, Answer.success]
  rw [hout, Output.nothing, Output.mk.injEq]
  cases v <;> simp [Value.isNull]

end CommandLine

namespace Session

/-- The sessions that can come of some sources: each input is one of them, and whatever else is
asked of the interpreter is read from them. -/
inductive Reached (sources : List String) : Session → Prop
  | new (config : Config) : Reached sources (new config)
  | eval {s : Session} (h : Reached sources s) {input : String} (hinput : input ∈ sources) :
      Reached sources (s.eval input).2
  | perform {s : Session} (h : Reached sources s) {op : Interpreter.Operation}
      (hop : op.ReadFrom sources) :
      Reached sources { s with interpreter := s.interpreter.perform op }

variable {sources : List String} {s : Session}

theorem Reached.all (h : s.Reached sources) :
    s.interpreter.env.All (Value.Regular (Expr.WrittenIn sources)) := by
  have hW := evaluable_writtenIn sources
  induction h with
  | new config => exact Environment.all_empty
  | @eval s _ input hinput ih =>
      rcases s.eval_session_cases input with hsame | hreset | ⟨p, hp, hrun⟩
      · rwa [hsame]
      · rw [hreset]
        exact Environment.all_empty
      · have hop : Interpreter.Operation.ReadFrom sources (.program p) := ⟨input, hinput, hp⟩
        rw [hrun]
        exact Interpreter.all_perform hW ih hop.evaluable
  | perform _ hop ih => exact Interpreter.all_perform hW ih hop.evaluable

/-- The value of a program of one of the sources is null or regular, and null only where there is
no value to give. -/
theorem Reached.runProgram (h : s.Reached sources) {source : String} (hsource : source ∈ sources)
    {p : Program} (hp : parseSource source = .ok p) {v : Value}
    (hrun : (s.interpreter.runProgram p).1 = .ok v) :
    (v = .null ∧ p.Silent) ∨ (v.Regular (Expr.WrittenIn sources) ∧ ¬ p.Silent) := by
  have hW := evaluable_writtenIn sources
  have hop : Interpreter.Operation.ReadFrom sources (.program p) := ⟨source, hsource, hp⟩
  rcases Interpreter.gives_of_runFrom hW h.all hop.evaluable hrun with
    ⟨hnil, rfl⟩ | ⟨last, hlast, ⟨hcomment, rfl⟩ | ⟨hother, hregular⟩⟩
  · exact .inl ⟨rfl, .inl hnil⟩
  · exact .inl ⟨rfl, .inr ⟨last, hlast, hcomment⟩⟩
  · refine .inr ⟨hregular, ?_⟩
    rintro (hnil | ⟨t, ht, hcomment⟩)
    · rw [hnil] at hlast
      cases hlast
    · cases hlast.symm.trans ht
      exact hother hcomment

theorem runProgram_of_runSource {source : String} {p : Program} (hp : parseSource source = .ok p)
    {config : Config} {v : Value} (h : runSource source config.maxDepth = .ok v) :
    ((new config).interpreter.runProgram p).1 = .ok v := by
  simp only [runSource, hp, bind, Except.bind] at h
  cases hrun : ((Interpreter.new config.maxDepth).runProgram p).1 with
  | ok w =>
      rw [hrun] at h
      cases h
      exact hrun
  | error e =>
      rw [hrun] at h
      cases h

/-- Whatever was run of some sources before, in whatever order and with whatever failures: what is
bound is regular, and so is what an expression gives in whatever is run of them next, at any depth.
A program of theirs that runs has the value null just where it is empty or a comment is the last
thing in it, and just there the command line prints nothing for it. -/
theorem values_regular (h : s.Reached sources) :
    s.interpreter.globals.All (Value.Regular (Expr.WrittenIn sources)) ∧
    (∀ (op : Interpreter.Operation) (m : Machine.State) (v : Value), op.ReadFrom sources →
      Interpreter.Visits s.interpreter op m → m.control = .deliver (.ok v) →
        v.Regular (Expr.WrittenIn sources)) ∧
    ∀ source ∈ sources, ∀ p, parseSource source = .ok p →
      (∀ v, (s.interpreter.runProgram p).1 = .ok v →
        (v = .null ↔ p.Silent) ∧ (v = .null ∨ v.Regular (Expr.WrittenIn sources))) ∧
      ∀ (config : Config) (terminal : Bool) (path : String) (v : Value),
        runSource source config.maxDepth = .ok v →
          ((CommandLine.FileCommand.run.perform config terminal path (.ok source)).output =
            .nothing ↔ p.Silent) := by
  have hvalue {t : Session} (ht : t.Reached sources) {source : String} (hsource : source ∈ sources)
      {p : Program} (hp : parseSource source = .ok p) {v : Value}
      (hrun : (t.interpreter.runProgram p).1 = .ok v) :
      (v = .null ↔ p.Silent) ∧ (v = .null ∨ v.Regular (Expr.WrittenIn sources)) := by
    rcases ht.runProgram hsource hp hrun with ⟨hnull, hsilent⟩ | ⟨hregular, hsilent⟩
    · exact ⟨iff_of_true hnull hsilent, .inl hnull⟩
    · exact ⟨iff_of_false hregular.ne_null hsilent, .inr hregular⟩
  refine ⟨h.all.globals, fun op m v hop hvisits hdeliver => ?_, fun source hsource p hp =>
    ⟨fun v hrun => hvalue h hsource hp hrun, fun config terminal path v hrun => ?_⟩⟩
  · have hcontrol := (hvisits.regular (evaluable_writtenIn sources) h.all hop.evaluable).control
    rw [hdeliver] at hcontrol
    exact hcontrol
  · rw [CommandLine.perform_run_eq_nothing_iff hrun]
    exact (hvalue (.new config) hsource hp (runProgram_of_runSource hp hrun)).1

/-- A function and a pair that it is in are left, and then the operator is given two pairs. -/
private def pairing : String := "<bool> f() = true;\nbool t = (f, true);\nt + t;"

private def pairedFunction : FunctionValue := ⟨"f", [], .always [] (.boolean true "true" ⟨13, 17⟩)⟩

private def paired : Value := .tuple [.function pairedFunction, .boolean true]

private theorem parse_pairing : parseSource pairing = .ok
    ⟨[.function ⟨"f", [], "bool", [], pairedFunction.body⟩ ⟨0, 18⟩,
      .define "bool" "t" (.tuple [.ident "f" ⟨29, 30⟩, .boolean true "true" ⟨32, 36⟩] ⟨28, 37⟩)
        ⟨19, 38⟩,
      .expression (.binary .add (.ident "t" ⟨39, 40⟩) (.ident "t" ⟨43, 44⟩) ⟨39, 44⟩)
        ⟨39, 45⟩]⟩ := by
  have hitems : (TokenStream.ofSource pairing).items =
      [.ok ⟨.compareOp, "<", ⟨0, 1⟩⟩, .ok ⟨.typeName, "bool", ⟨1, 5⟩⟩,
        .ok ⟨.compareOp, ">", ⟨5, 6⟩⟩, .ok ⟨.identifier, "f", ⟨7, 8⟩⟩,
        .ok ⟨.leftParen, "(", ⟨8, 9⟩⟩, .ok ⟨.rightParen, ")", ⟨9, 10⟩⟩,
        .ok ⟨.assign, "=", ⟨11, 12⟩⟩, .ok ⟨.boolean, "true", ⟨13, 17⟩⟩,
        .ok ⟨.semicolon, ";", ⟨17, 18⟩⟩, .ok ⟨.typeName, "bool", ⟨19, 23⟩⟩,
        .ok ⟨.identifier, "t", ⟨24, 25⟩⟩, .ok ⟨.assign, "=", ⟨26, 27⟩⟩,
        .ok ⟨.leftParen, "(", ⟨28, 29⟩⟩, .ok ⟨.identifier, "f", ⟨29, 30⟩⟩,
        .ok ⟨.comma, ",", ⟨30, 31⟩⟩, .ok ⟨.boolean, "true", ⟨32, 36⟩⟩,
        .ok ⟨.rightParen, ")", ⟨36, 37⟩⟩, .ok ⟨.semicolon, ";", ⟨37, 38⟩⟩,
        .ok ⟨.identifier, "t", ⟨39, 40⟩⟩, .ok ⟨.arithOp, "+", ⟨41, 42⟩⟩,
        .ok ⟨.identifier, "t", ⟨43, 44⟩⟩, .ok ⟨.semicolon, ";", ⟨44, 45⟩⟩] := by
    decide +kernel
  rw [parseSource, Program.parse, Program.ofStream, hitems]
  rfl

/-- A program that has no value to give although it runs. -/
private def remarking : String := "true; // end"

private def remarkingProgram : Program :=
  ⟨[.expression (.boolean true "true" ⟨0, 4⟩) ⟨0, 5⟩, .comment "// end" ⟨6, 12⟩]⟩

private theorem parse_remarking : parseSource remarking = .ok remarkingProgram := by
  have hitems : (TokenStream.ofSource remarking).items =
      [.ok ⟨.boolean, "true", ⟨0, 4⟩⟩, .ok ⟨.semicolon, ";", ⟨4, 5⟩⟩,
        .ok ⟨.comment, "// end", ⟨6, 12⟩⟩] := by
    decide +kernel
  rw [parseSource, Program.parse, Program.ofStream, hitems]
  rfl

theorem values_regular_paired :
    ∃ e s, (new Config.default).eval pairing = (.error e, s) ∧ s.Reached [pairing, remarking] ∧
      s.interpreter.globals.lookup? "t" = some paired ∧
      paired.Regular (Expr.WrittenIn [pairing, remarking]) ∧
      (s.interpreter.runProgram remarkingProgram).1 = .ok .null ∧ remarkingProgram.Silent ∧
      (CommandLine.FileCommand.run.perform Config.default false "end.tw" (.ok remarking)).output =
        .nothing := by
  let left : Session := ⟨Config.default,
    ⟨.ofList [("f", .function pairedFunction), ("t", paired)], none⟩, .empty (some 10000)⟩
  have heval : (new Config.default).eval pairing =
      (.error (.runtime ⟨.invalidBinary .add .tuple .tuple, some ⟨39, 44⟩, none⟩), left) := by
    simp only [Session.eval, parse_pairing]
    cbv
  have hreached : left.Reached [pairing, remarking] := by
    have hafter : ((new Config.default).eval pairing).2.Reached [pairing, remarking] :=
      .eval (.new Config.default) List.mem_cons_self
    rw [heval] at hafter
    exact hafter
  have hbound : left.interpreter.globals.lookup? "t" = some paired := by cbv
  have hnull : (left.interpreter.runProgram remarkingProgram).1 = .ok .null := by cbv
  have hrun : runSource remarking Config.default.maxDepth = .ok .null := by
    rw [runSource, parse_remarking]
    cbv
  obtain ⟨hglobals, -, hprograms⟩ := values_regular hreached
  obtain ⟨hvalue, hprinted⟩ := hprograms remarking (by simp) _ parse_remarking
  have hsilent := (hvalue .null hnull).1.mp rfl
  exact ⟨_, left, heval, hreached, hbound, hglobals.lookup? hbound, hnull, hsilent,
    (hprinted Config.default false "end.tw" .null hrun).mpr hsilent⟩

end Session

end Clausal
