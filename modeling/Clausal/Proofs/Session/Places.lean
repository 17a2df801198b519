import Mathlib
import Clausal.Proofs.Evaluation.Places
import Clausal.Proofs.Grammar.Places
import Clausal.Session

/-!
Where failures point. A failure of a source that is run on its own points into that source, at an
expression of its program where the run failed. In a session the bindings are left over from earlier
inputs, and the places in the functions among them are places of those inputs. So a failure of an
input points into that input, or into an earlier one from which a function is left.
-/

namespace Clausal

theorem LexError.exists_label (e : LexError) :
    ∃ message, e.diagnostic.label = some ⟨e.span, message⟩ := by
  obtain ⟨cause, span⟩ := e
  cases cause <;> exact ⟨_, rfl⟩

namespace Failure

/-- A failure before the run points to a place of the error that the parser met. -/
theorem exists_label_ofParseError {V : Span → Prop} {e : ParseError} (h : e.Placed V) :
    ∃ label, (ofParseError e).diagnostic.label = some label ∧ V label.span := by
  unfold ofParseError
  split
  · next error hcause =>
      obtain ⟨message, hlabel⟩ := error.exists_label
      exact ⟨_, hlabel, h.lexical error hcause⟩
  · next hcause =>
      refine ⟨⟨e.span, e.label⟩, ?_, h.span⟩
      obtain ⟨cause, span, context⟩ := e
      cases cause with
      | lexical error => exact absurd rfl (hcause error)
      | _ => cases context <;> rfl

theorem ofParseError_ne_runtime (e : ParseError) (x : EvalError) :
    ofParseError e ≠ .runtime x := by
  unfold ofParseError
  split <;> exact fun h => nomatch h

/-- A failure of the run points to a place that the run had. -/
theorem exists_label_runtime {P : Span → Prop} {e : EvalError} (h : e.Placed P)
    (hlocated : ∃ s, e.span = some s) :
    ∃ label, (runtime e).diagnostic.label = some label ∧ P label.span := by
  obtain ⟨s, hs⟩ := hlocated
  refine ⟨⟨s, e.cause.label⟩, ?_, h.span s hs⟩
  simp [diagnostic, EvalError.diagnostic, hs]

end Failure

theorem inside_of_parseSource {source : String} {p : Program} (h : parseSource source = .ok p) :
    ∀ s ∈ p.places, s.Inside source :=
  (Program.parse_inside source).1 p (parse_of_parseSource h)

/-- A failure of a source that is run on its own is located. Its label stands in the source, from
one character to another. Where the run fails, the label and every call of the backtrace stand at
expressions of the program. -/
theorem runSource_located {source : String} (hsize : source.utf8ByteSize < 2 ^ 32)
    (config : Config) {e : Failure} (h : runSource source config.maxDepth = .error e) :
    ∃ label, e.diagnostic.label = some label ∧ label.span.Aligned source ∧
      ∀ x, e = .runtime x → ∃ p, parseSource source = .ok p ∧ label.span ∈ p.places ∧
        ∀ b, x.backtrace = some b → ∀ f ∈ b.frames, ∃ s, f.site = some s ∧ s ∈ p.places := by
  have hmax : source.utf8ByteSize ≤ maxOffset := Nat.le_of_lt_succ hsize
  obtain ⟨hplaces, herrors⟩ := Program.parse_aligned hmax
  rcases parseSource_cases source with ⟨p, hp, hprogram⟩ | ⟨error, hp, hprogram⟩
  · obtain ⟨houtcome, -, hlocated⟩ :=
      (Interpreter.placed_new (P := (· ∈ p.places)) config.maxDepth).runProgram (p := p)
        fun _ hs => hs
    simp only [runSource, hp, bind, Except.bind] at h
    cases hrun : ((Interpreter.new config.maxDepth).runProgram p).1 with
    | ok v =>
        rw [hrun] at h
        cases h
    | error x =>
        rw [hrun] at h houtcome
        cases h
        obtain ⟨label, hlabel, hplace⟩ :=
          Failure.exists_label_runtime houtcome (hlocated x hrun)
        refine ⟨label, hlabel, hplaces p hprogram _ hplace, fun y hy => ?_⟩
        cases hy
        exact ⟨p, hp, hplace, houtcome.frames⟩
  · simp only [runSource, hp, bind, Except.bind] at h
    cases h
    obtain ⟨label, hlabel, hplace⟩ := Failure.exists_label_ofParseError (herrors error hprogram)
    exact ⟨label, hlabel, hplace, fun x hx => absurd hx (Failure.ofParseError_ne_runtime error x)⟩

/-- A function whose body fails, called after a comment with a character of two bytes. -/
private def calledMissing : String := "// é\n<bool> f() = missing;\nf();"

private def calledMissingError : EvalError :=
  ⟨.undefinedVariable "missing", some ⟨19, 26⟩, some ⟨[⟨"f", some ⟨28, 31⟩⟩], 0⟩⟩

theorem runSource_located_calledMissing :
    runSource calledMissing Config.default.maxDepth = .error (.runtime calledMissingError) ∧
      ∃ label, (Failure.runtime calledMissingError).diagnostic.label = some label ∧
        label.span.Aligned calledMissing ∧
        ∃ p, parseSource calledMissing = .ok p ∧ label.span ∈ p.places ∧
          ⟨28, 31⟩ ∈ p.places := by
  have hitems : (TokenStream.ofSource calledMissing).items =
      [.ok ⟨.comment, "// é", ⟨0, 5⟩⟩, .ok ⟨.compareOp, "<", ⟨6, 7⟩⟩,
        .ok ⟨.typeName, "bool", ⟨7, 11⟩⟩, .ok ⟨.compareOp, ">", ⟨11, 12⟩⟩,
        .ok ⟨.identifier, "f", ⟨13, 14⟩⟩, .ok ⟨.leftParen, "(", ⟨14, 15⟩⟩,
        .ok ⟨.rightParen, ")", ⟨15, 16⟩⟩, .ok ⟨.assign, "=", ⟨17, 18⟩⟩,
        .ok ⟨.identifier, "missing", ⟨19, 26⟩⟩, .ok ⟨.semicolon, ";", ⟨26, 27⟩⟩,
        .ok ⟨.identifier, "f", ⟨28, 29⟩⟩, .ok ⟨.leftParen, "(", ⟨29, 30⟩⟩,
        .ok ⟨.rightParen, ")", ⟨30, 31⟩⟩, .ok ⟨.semicolon, ";", ⟨31, 32⟩⟩] := by
    decide +kernel
  have hparse : parseSource calledMissing = .ok ⟨[.comment "// é" ⟨0, 5⟩,
      .function ⟨"f", [], "bool", [], .always [] (.ident "missing" ⟨19, 26⟩)⟩ ⟨6, 27⟩,
      .expression (.call (.ident "f" ⟨28, 29⟩) [] ⟨28, 31⟩) ⟨28, 32⟩]⟩ := by
    rw [parseSource, Program.parse, Program.ofStream, hitems]
    rfl
  have hrun : runSource calledMissing Config.default.maxDepth =
      .error (.runtime calledMissingError) := by
    rw [runSource, hparse]
    cbv
  have hsize : calledMissing.utf8ByteSize < 2 ^ 32 := by decide
  obtain ⟨label, hlabel, haligned, hruntime⟩ := runSource_located hsize Config.default hrun
  obtain ⟨p, hp, hplace, hframes⟩ := hruntime _ rfl
  obtain ⟨s, hs, hsite⟩ := hframes _ rfl ⟨"f", some ⟨28, 31⟩⟩ List.mem_cons_self
  cases hs
  exact ⟨hrun, label, hlabel, haligned, p, hp, hplace, hsite⟩

namespace Session

/-- The session after some inputs, whatever became of them. -/
def evalAll (s : Session) (inputs : List String) : Session :=
  inputs.foldl (fun s input => (s.eval input).2) s

/-- The place was read from one of the inputs. -/
def ReadFrom (inputs : List String) (s : Span) : Prop :=
  ∃ input ∈ inputs, ∃ p, parseSource input = .ok p ∧ s ∈ p.places

theorem ReadFrom.mono {inputs more : List String} (h : inputs ⊆ more) {s : Span}
    (hs : ReadFrom inputs s) : ReadFrom more s := by
  obtain ⟨input, hinput, p, hp, hplace⟩ := hs
  exact ⟨input, h hinput, p, hp, hplace⟩

/-- Between two inputs nothing is local, no call is active, and the functions that are bound stand
in the inputs so far. -/
structure Leaves (inputs : List String) (s : Session) : Prop where
  idle : s.interpreter.Idle
  globals : s.interpreter.globals.Placed (ReadFrom inputs)

theorem Leaves.placed {inputs : List String} {s : Session} (h : Leaves inputs s) {P : Span → Prop}
    (hP : s.interpreter.globals.Placed P) : s.interpreter.Placed P := by
  refine ⟨⟨hP, ?_⟩, ?_⟩
  · rw [h.idle.locals]
    exact fun _ hs => nomatch hs
  · rw [h.idle.frames]
    exact fun _ hf => nomatch hf

theorem leaves_new (inputs : List String) (config : Config) : Leaves inputs (new config) :=
  ⟨⟨rfl, rfl⟩, Scope.placed_empty⟩

theorem Leaves.eval {inputs : List String} {s : Session} (h : Leaves inputs s) (input : String) :
    Leaves (inputs ++ [input]) (s.eval input).2 := by
  have hmore : s.interpreter.globals.Placed (ReadFrom (inputs ++ [input])) :=
    fun b hb => (h.globals b hb).mono fun _ => ReadFrom.mono (List.subset_append_left _ _)
  rcases s.eval_session_cases input with hsame | hreset | ⟨p, hp, hrun⟩
  · rw [hsame]
    exact ⟨h.idle, hmore⟩
  · rw [hreset]
    exact leaves_new _ s.config
  · have hplaces : ∀ s ∈ p.places, ReadFrom (inputs ++ [input]) s :=
      fun s hs => ⟨input, by simp, p, hp, hs⟩
    have hanswer := (h.placed hmore).runProgram hplaces
    rw [hrun]
    exact ⟨h.idle.runFrom .null p.statements, hanswer.interpreter.env.globals⟩

/-- The functions that are bound after some inputs stand in those inputs. -/
theorem Leaves.evalAll {seen : List String} {s : Session} (h : Leaves seen s)
    (inputs : List String) : Leaves (seen ++ inputs) (s.evalAll inputs) := by
  induction inputs generalizing seen s with
  | nil => rwa [List.append_nil]
  | cons input inputs ih =>
      have hlater := ih (h.eval input)
      rwa [List.append_assoc] at hlater

/-- A failure of an input has a place. Where the input is not read, the place is in the input. Where
its run fails, the place is an expression of its program, or stands in a function that an earlier
input has left bound, and then it is a place in that earlier input. -/
theorem eval_error_place {config : Config} {earlier : List String} {input : String} {e : Failure}
    {s : Session} (h : ((new config).evalAll earlier).eval input = (.error e, s)) :
    ∃ label, e.diagnostic.label = some label ∧
      ((∀ x, e ≠ .runtime x) → label.span.Inside input) ∧
      ∀ x, e = .runtime x → ∃ p, parseSource input = .ok p ∧
        (label.span ∈ p.places ∧ label.span.Inside input ∨
          label.span ∈ ((new config).evalAll earlier).interpreter.globals.places ∧
            ∃ old ∈ earlier, ∃ q, parseSource old = .ok q ∧ label.span ∈ q.places ∧
              label.span.Inside old) := by
  have hleaves : Leaves earlier ((new config).evalAll earlier) :=
    (leaves_new [] config).evalAll earlier
  generalize (new config).evalAll earlier = before at h hleaves ⊢
  rw [eval_eq] at h
  rcases parseSource_cases input with ⟨p, hp, hprogram⟩ | ⟨error, hp, hprogram⟩
  -- All that the run can come across: the places of its own program, and those that the functions
  -- bound before have brought along from earlier inputs.
  · let P : Span → Prop := fun s => s ∈ p.places ∨
      s ∈ before.interpreter.globals.places ∧ ReadFrom earlier s
    have hglobals : before.interpreter.globals.Placed P := fun b hb s hs =>
      .inr ⟨List.mem_flatMap.mpr ⟨b, hb, hs⟩, hleaves.globals b hb s hs⟩
    obtain ⟨houtcome, -, hlocated⟩ :=
      (hleaves.placed hglobals).runProgram (p := p) fun s hs => .inl hs
    rw [hp] at h
    dsimp only at h
    cases hrun : before.interpreter.runProgram p with
    | mk outcome i =>
        rw [hrun] at h houtcome hlocated
        cases outcome with
        | ok v => cases h
        | error x =>
            cases h
            obtain ⟨label, hlabel, hplace⟩ :=
              Failure.exists_label_runtime houtcome (hlocated x rfl)
            refine ⟨label, hlabel, fun hx => absurd rfl (hx x), fun _ _ => ⟨p, hp, ?_⟩⟩
            rcases hplace with hplace | ⟨hbound, old, hold, q, hq, hplace⟩
            · exact .inl ⟨hplace, inside_of_parseSource hp _ hplace⟩
            · exact .inr ⟨hbound, old, hold, q, hq, hplace, inside_of_parseSource hq _ hplace⟩
  · rw [hp] at h
    cases h
    obtain ⟨label, hlabel, hplace⟩ :=
      Failure.exists_label_ofParseError ((Program.parse_inside input).2 error hprogram)
    exact ⟨label, hlabel, fun _ => hplace,
      fun x hx => absurd hx (Failure.ofParseError_ne_runtime error x)⟩

/-- The body of a function that an earlier input has left. -/
private def leftFunction : FunctionValue :=
  ⟨"f", [], .always [] (.ident "missing" ⟨13, 20⟩)⟩

/-- The place of a failure need not be in the input that fails: it is past the end of this one. -/
theorem eval_error_place_leftFunction :
    ∃ e s label, ((new Config.default).evalAll ["<bool> f() = missing;"]).eval "f();" =
        (.error e, s) ∧
      e.diagnostic.label = some label ∧ label.span = ⟨13, 20⟩ ∧ ¬ label.span.Inside "f();" ∧
      ∃ q, parseSource "<bool> f() = missing;" = .ok q ∧ label.span ∈ q.places := by
  have hdeclared : (TokenStream.ofSource "<bool> f() = missing;").items =
      [.ok ⟨.compareOp, "<", ⟨0, 1⟩⟩, .ok ⟨.typeName, "bool", ⟨1, 5⟩⟩,
        .ok ⟨.compareOp, ">", ⟨5, 6⟩⟩, .ok ⟨.identifier, "f", ⟨7, 8⟩⟩,
        .ok ⟨.leftParen, "(", ⟨8, 9⟩⟩, .ok ⟨.rightParen, ")", ⟨9, 10⟩⟩,
        .ok ⟨.assign, "=", ⟨11, 12⟩⟩, .ok ⟨.identifier, "missing", ⟨13, 20⟩⟩,
        .ok ⟨.semicolon, ";", ⟨20, 21⟩⟩] := by
    decide +kernel
  have hcalled : (TokenStream.ofSource "f();").items =
      [.ok ⟨.identifier, "f", ⟨0, 1⟩⟩, .ok ⟨.leftParen, "(", ⟨1, 2⟩⟩,
        .ok ⟨.rightParen, ")", ⟨2, 3⟩⟩, .ok ⟨.semicolon, ";", ⟨3, 4⟩⟩] := by
    decide +kernel
  have hdeclaration : parseSource "<bool> f() = missing;" = .ok
      ⟨[.function ⟨"f", [], "bool", [], leftFunction.body⟩ ⟨0, 21⟩]⟩ := by
    rw [parseSource, Program.parse, Program.ofStream, hdeclared]
    rfl
  have hcall : parseSource "f();" = .ok
      ⟨[.expression (.call (.ident "f" ⟨0, 1⟩) [] ⟨0, 3⟩) ⟨0, 4⟩]⟩ := by
    rw [parseSource, Program.parse, Program.ofStream, hcalled]
    rfl
  have hbefore : (new Config.default).evalAll ["<bool> f() = missing;"] =
      ⟨Config.default, ⟨.ofList [("f", .function leftFunction)], none⟩, .empty (some 10000)⟩ := by
    simp only [evalAll, List.foldl_cons, List.foldl_nil, Session.eval, hdeclaration]
    cbv
  have heval : ((new Config.default).evalAll ["<bool> f() = missing;"]).eval "f();" =
      (.error (.runtime ⟨.undefinedVariable "missing", some ⟨13, 20⟩,
        some ⟨[⟨"f", some ⟨0, 3⟩⟩], 0⟩⟩),
        ⟨Config.default, ⟨.ofList [("f", .function leftFunction)], none⟩,
          .empty (some 10000)⟩) := by
    simp only [hbefore, Session.eval, hcall]
    cbv
  obtain ⟨label, hlabel, -, hruntime⟩ := eval_error_place heval
  have hspan : label.span = ⟨13, 20⟩ := by
    cases hlabel
    rfl
  have houtside : ¬ label.span.Inside "f();" := by
    rw [hspan]
    exact fun h => absurd h.bounded (by decide)
  obtain ⟨p, -, ⟨-, hinside⟩ | ⟨-, old, hold, q, hq, hplace, -⟩⟩ := hruntime _ rfl
  · exact absurd hinside houtside
  · obtain rfl := List.mem_singleton.mp hold
    exact ⟨_, _, label, heval, hlabel, hspan, houtside, q, hq, hplace⟩

end Session

end Clausal
