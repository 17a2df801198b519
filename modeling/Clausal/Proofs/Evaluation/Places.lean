import Clausal.Proofs.Evaluation.Scope
import Clausal.Proofs.Tree.Places

/-!
Where a run gets its places from. Evaluation makes up no place: each span that it records stands in
the expression that is evaluated or in a function that is bound. And no failure is without a place:
the first thing that is pending while an expression is evaluated is that an error without a place
gets the place of the expression.
-/

namespace Clausal

section Placed

variable (P : Span → Prop)

def Scope.Placed (s : Scope) : Prop := ∀ b ∈ s.bindings, b.2.Placed P

structure Environment.Placed (env : Environment) : Prop where
  globals : env.globals.Placed P
  locals : ∀ s, env.locals = some s → s.Placed P

def Frame.Placed (f : Frame) : Prop := ∃ s, f.site = some s ∧ P s

structure Interpreter.Placed (i : Interpreter) : Prop where
  env : i.env.Placed P
  frames : ∀ f ∈ i.stack.frames, f.Placed P

structure EvalError.Placed (e : EvalError) : Prop where
  span : ∀ s, e.span = some s → P s
  frames : ∀ b, e.backtrace = some b → ∀ f ∈ b.frames, f.Placed P

def Outcome.Placed : Outcome → Prop
  | .ok v => v.Placed P
  | .error e => e.Placed P

end Placed

variable {P Q : Span → Prop}

section Environment

/-- A value that holds no function holds no place. -/
theorem Value.placed_of_places_eq_nil {v : Value} (h : v.places = []) : v.Placed P := by
  intro s hs
  rw [h] at hs
  contradiction

theorem Value.Placed.mono (hle : ∀ s, P s → Q s) {v : Value} (h : v.Placed P) : v.Placed Q :=
  fun s hs => hle s (h s hs)

namespace Scope

theorem placed_empty : empty.Placed P := all_empty

theorem Placed.define {s : Scope} (h : s.Placed P) (name : String) {v : Value}
    (hv : v.Placed P) : (s.define name v).Placed P := All.define h name hv

theorem placed_ofList {bindings : List (String × Value)} (h : ∀ b ∈ bindings, b.2.Placed P) :
    (ofList bindings).Placed P := all_ofList h

end Scope

theorem Environment.Placed.lookup? {env : Environment} (h : env.Placed P) {name : String}
    {v : Value} (hv : env.lookup? name = some v) : v.Placed P :=
  All.lookup? ⟨h.globals, h.locals⟩ hv

end Environment

section Errors

theorem EvalError.placed_ofCause (cause : EvalError.Cause) : (ofCause cause).Placed P :=
  ⟨(fun _ h => nomatch h), fun _ h => nomatch h⟩

/-- An error keeps the place it has, and one without a place takes this one. -/
theorem EvalError.Placed.orSpan {e : EvalError} (h : e.Placed P) {s : Span} (hs : P s) :
    (e.orSpan s).Placed P := by
  refine ⟨fun s' hs' => ?_, h.frames⟩
  rcases Option.or_eq_some_iff.mp hs' with hs' | ⟨-, hs'⟩
  · exact h.span s' hs'
  · cases hs'
    exact hs

/-- Where a place is offered, the error has one. -/
theorem EvalError.span_orSpan (e : EvalError) (span : Span) :
    ∃ s, (e.orSpan span).span = some s := by
  obtain ⟨cause, s, backtrace⟩ := e
  cases s with
  | none => exact ⟨span, rfl⟩
  | some s => exact ⟨s, rfl⟩

/-- The frames that an error takes along come from the stack. -/
theorem CallStack.placed_attach {stack : CallStack} (hstack : ∀ f ∈ stack.frames, f.Placed P)
    {e : EvalError} (h : e.Placed P) : (stack.attach e).Placed P := by
  unfold attach EvalError.orBacktrace
  split
  · refine ⟨h.span, fun b hb f hf => ?_⟩
    cases hb
    exact hstack f (List.mem_of_mem_take hf)
  · exact h

/-- The operators make no functions. -/
theorem BinaryOp.placed_apply (op : BinaryOp) (v w : Value) : Outcome.Placed P (op.apply v w) :=
  op.apply_cases (fun _ => Value.placed_of_places_eq_nil rfl)
    (fun _ => Value.placed_of_places_eq_nil rfl) (fun _ => Value.placed_of_places_eq_nil rfl)
    EvalError.placed_ofCause v w

/-- An operator makes no function, and its errors have no place yet. -/
theorem UnaryOp.placed_apply (op : UnaryOp) (v : Value) : Outcome.Placed P (op.apply v) :=
  op.apply_cases (fun _ => Value.placed_of_places_eq_nil rfl)
    (fun _ => Value.placed_of_places_eq_nil rfl) EvalError.placed_ofCause v

end Errors

theorem Interpreter.Placed.withLocals {i : Interpreter} (h : i.Placed P) {locals : Option Scope}
    (hlocals : ∀ s, locals = some s → s.Placed P) {stack : CallStack}
    (hstack : ∀ f ∈ stack.frames, f.Placed P) :
    Interpreter.Placed P ⟨i.env.withLocals locals, stack⟩ :=
  ⟨⟨h.env.globals, hlocals⟩, hstack⟩

namespace Machine

section Placed

variable (P : Span → Prop)

def Control.Placed : Control → Prop
  | .evaluate e => e.Placed P
  | .choose clauses place => (∀ c ∈ clauses, c.Placed P) ∧ P place
  | .invoke f args site =>
    f.body.Placed P ∧ (∀ v ∈ args, v.Placed P) ∧ Frame.Placed P ⟨f.name, site⟩
  | .deliver outcome => Outcome.Placed P outcome

def Pending.Placed : Pending → Prop
  | .rightOperand _ right => right.Placed P
  | .combine _ left => left.Placed P
  | .operate _ => True
  | .elements earlier later => (∀ v ∈ earlier, v.Placed P) ∧ ∀ e ∈ later, e.Placed P
  | .callee args site => (∀ e ∈ args, e.Placed P) ∧ P site
  | .arguments f earlier later site =>
    f.body.Placed P ∧ (∀ v ∈ earlier, v.Placed P) ∧ (∀ e ∈ later, e.Placed P) ∧ P site
  | .guard condition body later place =>
    P condition ∧ body.Placed P ∧ (∀ c ∈ later, c.Placed P) ∧ P place
  | .located span => P span
  | .leave saved => ∀ s, saved = some s → s.Placed P

structure State.Placed (s : State) : Prop where
  control : s.control.Placed P
  pending : ∀ p ∈ s.pending, p.Placed P
  interpreter : s.interpreter.Placed P

end Placed

section Steps

variable {rest : List Pending} (hrest : ∀ p ∈ rest, p.Placed P) {i : Interpreter}
  (hi : i.Placed P)

include hrest hi

/-- An expression that is entered leaves its own parts behind as pending work. -/
theorem placed_enter {e : Expr} (he : e.Placed P) : (enter e rest i).Placed P := by
  cases e with
  | number | string | boolean => exact ⟨(fun _ h => nomatch h), hrest, hi⟩
  | tuple es s =>
      obtain ⟨-, hes⟩ := Expr.placed_tuple.mp he
      cases es with
      | nil => exact ⟨(fun _ h => nomatch h), hrest, hi⟩
      | cons e es =>
          obtain ⟨he, hes⟩ := List.forall_mem_cons.mp hes
          exact ⟨he, List.forall_mem_cons.mpr ⟨⟨by simp, hes⟩, hrest⟩, hi⟩
  | ident name s =>
      unfold enter
      dsimp only
      split
      · next v hv => exact ⟨hi.env.lookup? hv, hrest, hi⟩
      · exact ⟨EvalError.placed_ofCause _, hrest, hi⟩
  | binary op a b s =>
      obtain ⟨-, ha, hb⟩ := Expr.placed_binary.mp he
      exact ⟨ha, List.forall_mem_cons.mpr ⟨hb, hrest⟩, hi⟩
  | unary op a s =>
      exact ⟨(Expr.placed_unary.mp he).2, List.forall_mem_cons.mpr ⟨trivial, hrest⟩, hi⟩
  | call f args s =>
      obtain ⟨hs, hf, hargs⟩ := Expr.placed_call.mp he
      exact ⟨hf, List.forall_mem_cons.mpr ⟨⟨hargs, hs⟩, hrest⟩, hi⟩
  | matching params clauses s =>
      exact ⟨Match.placed_iff.mpr (Expr.placed_matching.mp he), hrest, hi⟩

/-- A call puts its own frame on the stack, and goes on with the body of the function. -/
theorem placed_call {f : FunctionValue} {args : List Value} {site : Option Span}
    (hf : f.body.Placed P) (hargs : ∀ v ∈ args, v.Placed P)
    (hsite : Frame.Placed P ⟨f.name, site⟩) :
    (Machine.call f args site rest i).Placed P := by
  unfold Machine.call
  split
  · split
    · next stack hpush =>
        obtain ⟨hplace, hclauses⟩ := Match.placed_iff.mp hf
        have hframes : ∀ f ∈ stack.frames, f.Placed P := by
          unfold CallStack.push? at hpush
          split at hpush
          · cases hpush
            exact List.forall_mem_cons.mpr ⟨hsite, hi.frames⟩
          · cases hpush
        have hscope : (Scope.ofList (f.params.zip args)).Placed P :=
          Scope.placed_ofList fun b hb => hargs b.2 (List.of_mem_zip hb).2
        refine ⟨⟨hclauses, hplace⟩, List.forall_mem_cons.mpr ⟨hi.env.locals, hrest⟩, ?_⟩
        exact hi.withLocals (fun s hs => by cases hs; exact hscope) hframes
    · exact ⟨CallStack.placed_attach hi.frames (EvalError.placed_ofCause _), hrest, hi⟩
  · exact ⟨EvalError.placed_ofCause _, hrest, hi⟩

theorem placed_proceed {f : FunctionValue} {earlier : List Value} {later : List Expr} {site : Span}
    (hf : f.body.Placed P) (hearlier : ∀ v ∈ earlier, v.Placed P)
    (hlater : ∀ e ∈ later, e.Placed P) (hsite : P site) :
    (proceed f earlier later site rest i).Placed P := by
  cases later with
  | nil =>
      refine ⟨⟨hf, fun v hv => hearlier v (List.mem_reverse.mp hv), site, rfl, hsite⟩, hrest, hi⟩
  | cons e es =>
      obtain ⟨he, hes⟩ := List.forall_mem_cons.mp hlater
      exact ⟨he, List.forall_mem_cons.mpr ⟨⟨hf, hearlier, hes, hsite⟩, hrest⟩, hi⟩

theorem placed_applyTo {v : Value} {args : List Expr} {site : Span} (hv : v.Placed P)
    (hargs : ∀ e ∈ args, e.Placed P) (hsite : P site) :
    (applyTo v args site rest i).Placed P := by
  unfold applyTo
  split
  · exact placed_proceed hrest hi hv (by simp) hargs hsite
  · exact ⟨EvalError.placed_ofCause _, hrest, hi⟩

theorem placed_branch {v : Value} {condition : Span} {body : Expr} {later : List Clause}
    {place : Span} (hcondition : P condition) (hbody : body.Placed P)
    (hlater : ∀ c ∈ later, c.Placed P) (hplace : P place) :
    (branch v condition body later place rest i).Placed P := by
  unfold branch
  split
  · exact ⟨hbody, hrest, hi⟩
  · exact ⟨⟨hlater, hplace⟩, hrest, hi⟩
  · exact ⟨(EvalError.placed_ofCause _).orSpan hcondition, hrest, hi⟩

/-- What a value is handed to goes on with places it already held. -/
theorem placed_receive {v : Value} {p : Pending} (hv : v.Placed P) (hp : p.Placed P) :
    (receive v p rest i).Placed P := by
  cases p with
  | rightOperand op right => exact ⟨hp, List.forall_mem_cons.mpr ⟨hv, hrest⟩, hi⟩
  | combine op left => exact ⟨op.placed_apply left v, hrest, hi⟩
  | operate op => exact ⟨op.placed_apply v, hrest, hi⟩
  | elements earlier later =>
      obtain ⟨hearlier, hlater⟩ := hp
      have hvs : ∀ w ∈ v :: earlier, w.Placed P := List.forall_mem_cons.mpr ⟨hv, hearlier⟩
      cases later with
      | nil =>
          refine ⟨Value.placed_tuple.mpr fun w hw => hvs w (List.mem_reverse.mp hw), hrest, hi⟩
      | cons e es =>
          obtain ⟨he, hes⟩ := List.forall_mem_cons.mp hlater
          exact ⟨he, List.forall_mem_cons.mpr ⟨⟨hvs, hes⟩, hrest⟩, hi⟩
  | callee args site => exact placed_applyTo hrest hi hv hp.1 hp.2
  | arguments f earlier later site =>
      obtain ⟨hf, hearlier, hlater, hsite⟩ := hp
      exact placed_proceed hrest hi hf (List.forall_mem_cons.mpr ⟨hv, hearlier⟩) hlater hsite
  | guard condition body later place =>
      obtain ⟨hcondition, hbody, hlater, hplace⟩ := hp
      exact placed_branch hrest hi hcondition hbody hlater hplace
  | located span => exact ⟨hv, hrest, hi⟩
  | leave saved =>
      exact ⟨hv, hrest, hi.withLocals hp fun f hf => hi.frames f (List.mem_of_mem_tail hf)⟩

/-- An error on its way out takes places from the pending work and from the stack only. -/
theorem placed_unwind {e : EvalError} {p : Pending} (he : e.Placed P) (hp : p.Placed P) :
    (unwind e p rest i).Placed P := by
  cases p with
  | located span => exact ⟨he.orSpan hp, hrest, hi⟩
  | leave saved =>
      exact ⟨CallStack.placed_attach hi.frames he, hrest,
        hi.withLocals hp fun f hf => hi.frames f (List.mem_of_mem_tail hf)⟩
  | _ => exact ⟨he, hrest, hi⟩

end Steps

/-- A step makes up no place. -/
theorem State.Placed.step {s t : State} (hs : s.Placed P) (h : step s = .next t) :
    t.Placed P := by
  obtain ⟨control, pending, i⟩ := s
  obtain ⟨hcontrol, hpending, hi⟩ := hs
  cases control with
  | evaluate e =>
      cases h
      have hlocated : Pending.Placed P (.located e.span) := Expr.Placed.span hcontrol
      exact placed_enter (List.forall_mem_cons.mpr ⟨hlocated, hpending⟩) hi hcontrol
  | choose clauses place =>
      obtain ⟨hclauses, hplace⟩ := hcontrol
      cases clauses with
      | nil =>
          cases h
          exact ⟨(EvalError.placed_ofCause _).orSpan hplace, hpending, hi⟩
      | cons clause later =>
          obtain ⟨hclause, hlater⟩ := List.forall_mem_cons.mp hclauses
          cases clause with
          | guarded condition body s =>
              cases h
              obtain ⟨hcondition, hbody⟩ := Clause.placed_guarded.mp hclause
              have hguard : Pending.Placed P (.guard condition.span body later place) :=
                ⟨hcondition.span, hbody, hlater, hplace⟩
              exact ⟨hcondition, List.forall_mem_cons.mpr ⟨hguard, hpending⟩, hi⟩
          | catchAll body s =>
              cases h
              exact ⟨Clause.placed_catchAll.mp hclause, hpending, hi⟩
  | invoke f args site =>
      cases h
      exact placed_call hpending hi hcontrol.1 hcontrol.2.1 hcontrol.2.2
  | deliver outcome =>
      cases pending with
      | nil => cases h
      | cons p rest =>
          obtain ⟨hp, hrest⟩ := List.forall_mem_cons.mp hpending
          cases outcome with
          | ok v =>
              cases h
              exact placed_receive hrest hi hcontrol hp
          | error e =>
              cases h
              exact placed_unwind hrest hi hcontrol hp

/-- A run makes up no place. -/
theorem State.Placed.run {s : State} (hs : s.Placed P) : Outcome.Placed P (run s).1 := by
  have hends := ends s
  induction hends with
  | intro s _ ih =>
      cases hstep : Machine.step s with
      | next t =>
          rw [run_of_next hstep]
          exact ih t hstep (hs.step hstep)
      | done outcome i =>
          rw [run_of_done hstep]
          obtain rfl := eq_of_step_done hstep
          exact hs.control

section Pending

variable (rest : List Pending) (i : Interpreter)

/-- Work is put on top of what is pending, and nothing below is touched. -/
theorem suffix_enter (e : Expr) : rest <:+ (enter e rest i).pending := by
  unfold enter
  split
  case h_6 => split <;> exact List.suffix_rfl
  all_goals first | exact List.suffix_rfl | exact List.suffix_cons _ _

theorem suffix_call (f : FunctionValue) (args : List Value) (site : Option Span) :
    rest <:+ (Machine.call f args site rest i).pending := by
  unfold Machine.call
  split
  · split
    · exact List.suffix_cons _ _
    · exact List.suffix_rfl
  · exact List.suffix_rfl

theorem suffix_proceed (f : FunctionValue) (earlier : List Value) (later : List Expr)
    (site : Span) : rest <:+ (proceed f earlier later site rest i).pending := by
  cases later with
  | nil => exact List.suffix_rfl
  | cons e es => exact List.suffix_cons _ _

theorem suffix_receive (v : Value) (p : Pending) : rest <:+ (receive v p rest i).pending := by
  cases p with
  | rightOperand op right => exact List.suffix_cons _ _
  | elements earlier later =>
      cases later with
      | nil => exact List.suffix_rfl
      | cons e es => exact List.suffix_cons _ _
  | callee args site =>
      simp only [receive, applyTo]
      split
      · exact suffix_proceed rest i _ [] args site
      · exact List.suffix_rfl
  | arguments f earlier later site => exact suffix_proceed rest i f (v :: earlier) later site
  | guard condition body later place =>
      simp only [receive, branch]
      split <;> exact List.suffix_rfl
  | _ => exact List.suffix_rfl

/-- An error takes one piece of pending work away. -/
theorem pending_unwind (e : EvalError) (p : Pending) : (unwind e p rest i).pending = rest := by
  cases p <;> rfl

end Pending

/-- What is done last with an outcome is to give an error its place. -/
def Rooted (pending : List Pending) : Prop := ∃ span, pending.getLast? = some (.located span)

theorem Rooted.of_suffix {rest pending : List Pending} (h : Rooted rest)
    (hsuffix : rest <:+ pending) : Rooted pending := by
  obtain ⟨span, hlast⟩ := h
  obtain ⟨more, rfl⟩ := hsuffix
  exact ⟨span, by rw [List.getLast?_append, hlast]; rfl⟩

/-- Work that rests on a placed piece is that piece alone, or there is more below it. -/
theorem Rooted.cases {p : Pending} {rest : List Pending} (h : Rooted (p :: rest)) :
    (rest = [] ∧ ∃ span, p = .located span) ∨ Rooted rest := by
  obtain ⟨span, hlast⟩ := h
  cases rest with
  | nil => exact .inl ⟨rfl, span, Option.some.inj hlast⟩
  | cons q rest => exact .inr ⟨span, by rwa [List.getLast?_cons_cons] at hlast⟩

/-- An error will have a place: it has one already, or it is given one in the end. -/
inductive Locating : State → Prop
  | pending {s : State} (h : Rooted s.pending) : Locating s
  | delivered (v : Value) (i : Interpreter) : Locating ⟨.deliver (.ok v), [], i⟩
  | located {e : EvalError} {span : Span} (h : e.span = some span) (i : Interpreter) :
      Locating ⟨.deliver (.error e), [], i⟩

/-- A step keeps a placed piece at the bottom of the work, or it gives the last error its place. -/
theorem Locating.step {s t : State} (hs : Locating s) (h : Machine.step s = .next t) :
    Locating t := by
  cases hs with
  | delivered v i => cases h
  | located hspan i => cases h
  | pending hrooted =>
      obtain ⟨control, pending, i⟩ := s
      cases control with
      | evaluate e =>
          cases h
          have hroot : Rooted (.located e.span :: pending) :=
            hrooted.of_suffix (List.suffix_cons _ _)
          exact .pending (hroot.of_suffix (suffix_enter _ i e))
      | choose clauses place =>
          cases clauses with
          | nil =>
              cases h
              exact .pending hrooted
          | cons clause later =>
              cases clause with
              | guarded condition body s =>
                  cases h
                  exact .pending (hrooted.of_suffix (List.suffix_cons _ _))
              | catchAll body s =>
                  cases h
                  exact .pending hrooted
      | invoke f args site =>
          cases h
          exact .pending (hrooted.of_suffix (suffix_call _ i f args site))
      | deliver outcome =>
          cases pending with
          | nil => cases h
          | cons p rest =>
              -- If nothing else is pending, this is the step that gives an error its place.
              rcases hrooted.cases with ⟨rfl, span, rfl⟩ | hroot
              · cases outcome with
                | ok v =>
                    cases h
                    exact .delivered v i
                | error e =>
                    cases h
                    obtain ⟨s, hspan⟩ := EvalError.span_orSpan e span
                    exact .located hspan i
              · cases outcome with
                | ok v =>
                    cases h
                    exact .pending (hroot.of_suffix (suffix_receive rest i v p))
                | error e =>
                    cases h
                    refine .pending ?_
                    rwa [pending_unwind]

/-- The error that a run ends with has a place. -/
theorem Locating.run {s : State} (hs : Locating s) {e : EvalError}
    (h : (Machine.run s).1 = .error e) : ∃ span, e.span = some span := by
  have hends := ends s
  induction hends with
  | intro s _ ih =>
      cases hstep : Machine.step s with
      | next t =>
          rw [run_of_next hstep] at h
          exact ih t hstep (hs.step hstep) h
      | done outcome i =>
          rw [run_of_done hstep] at h
          obtain rfl : outcome = .error e := h
          obtain rfl := eq_of_step_done hstep
          cases hs with
          | pending hrooted =>
              obtain ⟨span, hlast⟩ := hrooted
              cases hlast
          | located hspan i => exact ⟨_, hspan⟩

end Machine

namespace Interpreter

variable {i j : Interpreter}

/-- Whatever places the parts of an interpreter and an expression have, the value or the error has
only these. -/
theorem Placed.evaluate (hi : i.Placed P) {e : Expr} (he : e.Placed P) :
    Outcome.Placed P (i.evaluate e).1 :=
  Machine.State.Placed.run ⟨he, (fun _ hp => nomatch hp), hi⟩

/-- Every error that an evaluation ends with has a place. -/
theorem evaluate_error_span {e : Expr} {error : EvalError}
    (h : (i.evaluate e).1 = .error error) : ∃ span, error.span = some span := by
  have hstep : Machine.step ⟨.evaluate e, [], i⟩ =
      .next (Machine.enter e [.located e.span] i) := rfl
  rw [Interpreter.evaluate, Machine.run_of_next hstep] at h
  have hroot : Machine.Rooted [.located e.span] := ⟨e.span, rfl⟩
  exact Machine.Locating.run (.pending (hroot.of_suffix (Machine.suffix_enter _ i e))) h

/-- What an answer of a run is to be: values and errors stand at such places, as do the bindings
after it, and an error has a place. -/
structure AnswerPlaced (P : Span → Prop) (a : Outcome × Interpreter) : Prop where
  outcome : Outcome.Placed P a.1
  interpreter : a.2.Placed P
  located : ∀ e, a.1 = .error e → ∃ s, e.span = some s

/-- The interpreter that is left holds no other places either. -/
theorem Placed.evaluate_answer (hi : i.Placed P) {e : Expr} (he : e.Placed P) :
    AnswerPlaced P (i.evaluate e) :=
  ⟨hi.evaluate he, by rwa [evaluate_interpreter], fun _ h => evaluate_error_span h⟩

theorem AnswerPlaced.bind {a : Outcome × Interpreter} (h : AnswerPlaced P a) (name : String) :
    AnswerPlaced P (bind name a) := by
  obtain ⟨outcome, i⟩ := a
  obtain ⟨houtcome, hi, hlocated⟩ := h
  cases outcome with
  | ok v =>
      refine ⟨houtcome, ⟨⟨hi.env.globals.define name houtcome, hi.env.locals⟩, hi.frames⟩, ?_⟩
      exact fun _ he => nomatch he
  | error e => exact ⟨houtcome, hi, hlocated⟩

theorem Placed.runStatement (hi : i.Placed P) {s : Statement} (hs : s.Placed P) :
    AnswerPlaced P (i.runStatement s) := by
  cases s with
  | define typeName name init s => exact (hi.evaluate_answer hs).bind name
  | function d s =>
      have hanswer : AnswerPlaced P (.ok (.function (.ofDecl d)), i) :=
        ⟨hs, hi, fun _ he => nomatch he⟩
      exact hanswer.bind d.name
  | expression e s => exact hi.evaluate_answer hs
  | comment text s => exact ⟨(fun _ h => nomatch h), hi, fun _ he => nomatch he⟩

/-- Statements one after the other add no places but their own. -/
theorem Placed.runFrom (hi : i.Placed P) (last : Value) (hlast : last.Placed P)
    {ss : List Statement} (hss : ∀ s ∈ ss, s.Placed P) : AnswerPlaced P (i.runFrom last ss) := by
  induction ss generalizing i last with
  | nil => exact ⟨hlast, hi, fun _ he => nomatch he⟩
  | cons s ss ih =>
      obtain ⟨hs, hss⟩ := List.forall_mem_cons.mp hss
      have hanswer := hi.runStatement hs
      rw [Interpreter.runFrom]
      cases hrun : i.runStatement s with
      | mk outcome j =>
          rw [hrun] at hanswer
          cases outcome with
          | ok v => exact ih hanswer.interpreter v hanswer.outcome hss
          | error e => exact hanswer

/-- A program that runs on bindings with such places, and has such places itself, fails at such a
place only, and leaves bindings with such places. -/
theorem Placed.runProgram (hi : i.Placed P) {p : Program} (hp : ∀ s ∈ p.places, P s) :
    AnswerPlaced P (i.runProgram p) :=
  hi.runFrom .null (fun _ h => nomatch h) (Program.forall_mem_places.mp hp)

theorem placed_new (limit : Option Nat) : (new limit).Placed P :=
  ⟨⟨Scope.placed_empty, (fun _ h => nomatch h)⟩, fun _ h => nomatch h⟩

end Interpreter

end Clausal
