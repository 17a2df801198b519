import Clausal.Proofs.Evaluation.Scope
import Clausal.Proofs.Tree.Parts

/-!
What values there are. Evaluation gives no null, no tuple with fewer than two elements, and no
function whose parameters are not those of the match that is its body. This rests on what is
evaluated: trees as they are read, in which tuples have two elements or more, and a run evaluates
nothing but parts of the trees that it was given.
-/

namespace Clausal

/-- What can be evaluated: with an expression its parts, and no tuple with fewer than two
elements. -/
structure Expr.Evaluable (W : Expr → Prop) : Prop where
  closed : Closed W
  size : ∀ {es s}, W (.tuple es s) → 2 ≤ es.length

/-- What evaluation gives: no null, tuples of two elements or more, and functions with the
parameters of their bodies, which are matches like this. -/
inductive Value.Regular (W : Expr → Prop) : Value → Prop
  | number (x : Float) : Regular W (.number x)
  | string (s : String) : Regular W (.string s)
  | boolean (b : Bool) : Regular W (.boolean b)
  | tuple {vs : List Value} (size : 2 ≤ vs.length) (elements : ∀ v ∈ vs, Regular W v) :
      Regular W (.tuple vs)
  | function {f : FunctionValue} (params : f.params = f.body.paramNames) (body : W f.body.toExpr) :
      Regular W (.function f)

section Regular

variable (W : Expr → Prop)

def Outcome.Regular : Outcome → Prop
  | .ok v => v.Regular W
  | .error _ => True

namespace Machine

def Control.Regular : Control → Prop
  | .evaluate e => W e
  | .choose clauses _ => ∀ c ∈ clauses, c.All W
  | .invoke f args _ => (Value.function f).Regular W ∧ ∀ v ∈ args, v.Regular W
  | .deliver outcome => Outcome.Regular W outcome

/-- The elements of a tuple are counted with the one that is awaited. -/
def Pending.Regular : Pending → Prop
  | .rightOperand _ right => W right
  | .combine _ left => left.Regular W
  | .operate _ | .located _ => True
  | .elements earlier later =>
    2 ≤ earlier.length + 1 + later.length ∧ (∀ v ∈ earlier, v.Regular W) ∧ ∀ e ∈ later, W e
  | .callee args _ => ∀ e ∈ args, W e
  | .arguments f earlier later _ =>
    (Value.function f).Regular W ∧ (∀ v ∈ earlier, v.Regular W) ∧ ∀ e ∈ later, W e
  | .guard _ body later _ => W body ∧ ∀ c ∈ later, c.All W
  | .leave saved => ∀ s, saved = some s → s.All (Value.Regular W)

structure State.Regular (s : State) : Prop where
  control : s.control.Regular W
  pending : ∀ p ∈ s.pending, p.Regular W
  env : s.interpreter.env.All (Value.Regular W)

end Machine

end Regular

variable {W : Expr → Prop}

/-- No regular value is the null value. -/
theorem Value.Regular.ne_null {v : Value} (h : v.Regular W) : v ≠ .null := by
  rintro rfl
  cases h

/-- An operator gives a number, a string or a truth value, or it fails. -/
theorem BinaryOp.regular_apply (op : BinaryOp) (v w : Value) :
    Outcome.Regular W (op.apply v w) :=
  op.apply_cases Value.Regular.number Value.Regular.string Value.Regular.boolean
    (fun _ => trivial) v w

theorem UnaryOp.regular_apply (op : UnaryOp) (v : Value) : Outcome.Regular W (op.apply v) :=
  op.apply_cases Value.Regular.number Value.Regular.boolean (fun _ => trivial) v

namespace Machine

section Steps

variable (hW : Expr.Evaluable W) {rest : List Pending} (hrest : ∀ p ∈ rest, p.Regular W)
  {i : Interpreter} (hi : i.env.All (Value.Regular W))

include hrest hi

theorem regular_proceed {f : FunctionValue} {earlier : List Value} {later : List Expr} {site : Span}
    (hf : (Value.function f).Regular W) (hearlier : ∀ v ∈ earlier, v.Regular W)
    (hlater : ∀ e ∈ later, W e) : (proceed f earlier later site rest i).Regular W := by
  cases later with
  | nil => exact ⟨⟨hf, fun v hv => hearlier v (List.mem_reverse.mp hv)⟩, hrest, hi⟩
  | cons e es =>
      obtain ⟨he, hes⟩ := List.forall_mem_cons.mp hlater
      exact ⟨he, List.forall_mem_cons.mpr ⟨⟨hf, hearlier, hes⟩, hrest⟩, hi⟩

/-- Regular values are put together to regular ones. -/
theorem regular_receive {v : Value} {p : Pending} (hv : v.Regular W) (hp : p.Regular W) :
    (receive v p rest i).Regular W := by
  cases p with
  | rightOperand op right => exact ⟨hp, List.forall_mem_cons.mpr ⟨hv, hrest⟩, hi⟩
  | combine op left => exact ⟨op.regular_apply left v, hrest, hi⟩
  | operate op => exact ⟨op.regular_apply v, hrest, hi⟩
  | elements earlier later =>
      obtain ⟨hsize, hearlier, hlater⟩ := hp
      have hvs : ∀ w ∈ v :: earlier, w.Regular W := List.forall_mem_cons.mpr ⟨hv, hearlier⟩
      cases later with
      | nil =>
          have hcount : 2 ≤ (v :: earlier).reverse.length := by simpa using hsize
          have htuple : (Value.tuple (v :: earlier).reverse).Regular W :=
            .tuple hcount fun w hw => hvs w (List.mem_reverse.mp hw)
          exact ⟨htuple, hrest, hi⟩
      | cons e es =>
          obtain ⟨he, hes⟩ := List.forall_mem_cons.mp hlater
          have hcount : 2 ≤ (v :: earlier).length + 1 + es.length := by
            rw [List.length_cons] at hsize ⊢
            omega
          exact ⟨he, List.forall_mem_cons.mpr ⟨⟨hcount, hvs, hes⟩, hrest⟩, hi⟩
  | callee args site =>
      simp only [receive, applyTo]
      split
      · exact regular_proceed hrest hi hv (by simp) hp
      · exact ⟨trivial, hrest, hi⟩
  | arguments f earlier later site =>
      obtain ⟨hf, hearlier, hlater⟩ := hp
      exact regular_proceed hrest hi hf (List.forall_mem_cons.mpr ⟨hv, hearlier⟩) hlater
  | guard condition body later place =>
      simp only [receive, branch]
      split
      · exact ⟨hp.1, hrest, hi⟩
      · exact ⟨hp.2, hrest, hi⟩
      · exact ⟨trivial, hrest, hi⟩
  | located span => exact ⟨hv, hrest, hi⟩
  | leave saved => exact ⟨hv, hrest, ⟨hi.globals, hp⟩⟩

theorem regular_unwind {e : EvalError} {p : Pending} (hp : p.Regular W) :
    (unwind e p rest i).Regular W := by
  cases p with
  | leave saved => exact ⟨trivial, hrest, ⟨hi.globals, hp⟩⟩
  | _ => exact ⟨trivial, hrest, hi⟩

include hW

/-- What is left pending by an expression makes no other values than regular ones. -/
theorem regular_enter {e : Expr} (he : W e) : (enter e rest i).Regular W := by
  cases e with
  | number value raw s => exact ⟨Value.Regular.number value, hrest, hi⟩
  | string value raw s => exact ⟨Value.Regular.string value, hrest, hi⟩
  | boolean value raw s => exact ⟨Value.Regular.boolean value, hrest, hi⟩
  | tuple es s =>
      have hsize := hW.size he
      cases es with
      | nil => exact absurd hsize (by decide)
      | cons e es =>
          obtain ⟨he, hes⟩ := List.forall_mem_cons.mp (hW.closed.tuple he)
          have helements : Pending.Regular W (.elements [] es) := by
            refine ⟨?_, (fun _ hv => nomatch hv), hes⟩
            rwa [List.length_nil, Nat.zero_add, Nat.add_comm]
          exact ⟨he, List.forall_mem_cons.mpr ⟨helements, hrest⟩, hi⟩
  | ident name s =>
      unfold enter
      dsimp only
      split
      · next v hv => exact ⟨hi.lookup? hv, hrest, hi⟩
      · exact ⟨trivial, hrest, hi⟩
  | binary op a b s =>
      obtain ⟨ha, hb⟩ := hW.closed.binary he
      exact ⟨ha, List.forall_mem_cons.mpr ⟨hb, hrest⟩, hi⟩
  | unary op a s => exact ⟨hW.closed.unary he, List.forall_mem_cons.mpr ⟨trivial, hrest⟩, hi⟩
  | call f args s =>
      obtain ⟨hf, hargs⟩ := hW.closed.call he
      exact ⟨hf, List.forall_mem_cons.mpr ⟨hargs, hrest⟩, hi⟩
  | matching params clauses s =>
      have hfunction : (Value.function (.anonymous ⟨params, clauses, s⟩)).Regular W :=
        .function rfl he
      exact ⟨hfunction, hrest, hi⟩

theorem regular_call {f : FunctionValue} {args : List Value} {site : Option Span}
    (hf : (Value.function f).Regular W) (hargs : ∀ v ∈ args, v.Regular W) :
    (Machine.call f args site rest i).Regular W := by
  unfold Machine.call
  split
  · split
    · cases hf with
      | function params body =>
          have hscope : (Scope.ofList (f.params.zip args)).All (Value.Regular W) :=
            Scope.all_ofList fun b hb => hargs b.2 (List.of_mem_zip hb).2
          refine ⟨hW.closed.matching body, List.forall_mem_cons.mpr ⟨hi.locals, hrest⟩, ?_⟩
          exact ⟨hi.globals, fun s hs => by cases hs; exact hscope⟩
    · exact ⟨trivial, hrest, hi⟩
  · exact ⟨trivial, hrest, hi⟩

end Steps

/-- A step makes regular values out of regular values. -/
theorem State.Regular.step (hW : Expr.Evaluable W) {s t : State} (hs : s.Regular W)
    (h : step s = .next t) : t.Regular W := by
  obtain ⟨control, pending, i⟩ := s
  obtain ⟨hcontrol, hpending, hi⟩ := hs
  cases control with
  | evaluate e =>
      cases h
      have hlocated : Pending.Regular W (.located e.span) := trivial
      exact regular_enter hW (List.forall_mem_cons.mpr ⟨hlocated, hpending⟩) hi hcontrol
  | choose clauses place =>
      cases clauses with
      | nil =>
          cases h
          exact ⟨trivial, hpending, hi⟩
      | cons clause later =>
          obtain ⟨hclause, hlater⟩ := List.forall_mem_cons.mp hcontrol
          cases clause with
          | guarded condition body s =>
              cases h
              obtain ⟨hcondition, hbody⟩ := hclause
              exact ⟨hcondition, List.forall_mem_cons.mpr ⟨⟨hbody, hlater⟩, hpending⟩, hi⟩
          | catchAll body s =>
              cases h
              exact ⟨hclause, hpending, hi⟩
  | invoke f args site =>
      cases h
      exact regular_call hW hpending hi hcontrol.1 hcontrol.2
  | deliver outcome =>
      cases pending with
      | nil => cases h
      | cons p rest =>
          obtain ⟨hp, hrest⟩ := List.forall_mem_cons.mp hpending
          cases outcome with
          | ok v =>
              cases h
              exact regular_receive hrest hi hcontrol hp
          | error e =>
              cases h
              exact regular_unwind hrest hi hp

/-- Every value on the way is regular. -/
theorem Reaches.regular (hW : Expr.Evaluable W) {s t : State} (h : Reaches s t)
    (hs : s.Regular W) : t.Regular W := by
  induction h with
  | start => exact hs
  | step _ next ih => exact ih.step hW next

theorem State.Regular.run (hW : Expr.Evaluable W) {s : State} (hs : s.Regular W) :
    Outcome.Regular W (run s).1 := by
  have hends := ends s
  induction hends with
  | intro s _ ih =>
      cases hstep : Machine.step s with
      | next t =>
          rw [run_of_next hstep]
          exact ih t hstep (hs.step hW hstep)
      | done outcome i =>
          rw [run_of_done hstep]
          obtain rfl := eq_of_step_done hstep
          exact hs.control

end Machine

/-- What the statement evaluates is like this, and a function that it declares is regular. -/
def Statement.Evaluable (W : Expr → Prop) : Statement → Prop
  | .define _ _ init _ => W init
  | .function d _ => (Value.function (.ofDecl d)).Regular W
  | .expression e _ => W e
  | .comment .. => True

def Statement.IsComment (s : Statement) : Prop := ∃ text span, s = .comment text span

/-- What the statement gives if it does not fail: null after a comment, and a regular value after
any other. -/
def Statement.Gives (W : Expr → Prop) (s : Statement) (v : Value) : Prop :=
  (s.IsComment ∧ v = .null) ∨ (¬ s.IsComment ∧ v.Regular W)

namespace Interpreter

variable {i : Interpreter}

/-- What is evaluated in the operation is like this, and the values given to it are regular. -/
def Operation.Evaluable (W : Expr → Prop) : Operation → Prop
  | .program p => ∀ s ∈ p.statements, s.Evaluable W
  | .statement s => s.Evaluable W
  | .expression e => W e
  | .call f args _ => (Value.function f).Regular W ∧ ∀ v ∈ args, v.Regular W
  | .reset => True

/-- An expression evaluates to a regular value, if it does to any. -/
theorem regular_evaluate (hW : Expr.Evaluable W) (hi : i.env.All (Value.Regular W)) {e : Expr}
    (he : W e) : Outcome.Regular W (i.evaluate e).1 := by
  have hstart : Machine.State.Regular W ⟨.evaluate e, [], i⟩ :=
    ⟨he, (fun _ hp => nomatch hp), hi⟩
  exact hstart.run hW

theorem all_bind {answer : Outcome × Interpreter} (houtcome : Outcome.Regular W answer.1)
    (henv : answer.2.env.All (Value.Regular W)) (name : String) :
    (bind name answer).1 = answer.1 ∧ (bind name answer).2.env.All (Value.Regular W) := by
  obtain ⟨outcome, i⟩ := answer
  cases outcome with
  | ok v => exact ⟨rfl, henv.defineGlobal name houtcome⟩
  | error e => exact ⟨rfl, henv⟩

theorem regular_runStatement (hW : Expr.Evaluable W) (hi : i.env.All (Value.Regular W))
    {s : Statement} (hs : s.Evaluable W) :
    (∀ v, (i.runStatement s).1 = .ok v → s.Gives W v) ∧
      (i.runStatement s).2.env.All (Value.Regular W) := by
  have hother {outcome : Outcome} (hregular : Outcome.Regular W outcome) (hs : ¬ s.IsComment)
      (v : Value) (hv : outcome = .ok v) : s.Gives W v := by
    subst hv
    exact .inr ⟨hs, hregular⟩
  have hafter (e : Expr) : (i.evaluate e).2.env.All (Value.Regular W) := by
    rwa [evaluate_interpreter]
  cases s with
  | define typeName name init span =>
      have houtcome := regular_evaluate hW hi hs
      obtain ⟨hsame, henv⟩ := all_bind houtcome (hafter init) name
      refine ⟨hother ?_ (by simp [Statement.IsComment]), henv⟩
      rwa [runStatement, hsame]
  | function d span =>
      exact ⟨hother hs (by simp [Statement.IsComment]), hi.defineGlobal d.name hs⟩
  | expression e span =>
      exact ⟨hother (regular_evaluate hW hi hs) (by simp [Statement.IsComment]), hafter e⟩
  | comment text span =>
      exact ⟨fun v hv => .inl ⟨⟨text, span, rfl⟩, (Except.ok.inj hv).symm⟩, hi⟩

section Run

variable (hW : Expr.Evaluable W) (hi : i.env.All (Value.Regular W)) {ss : List Statement}
  (hss : ∀ s ∈ ss, s.Evaluable W)

include hW hi hss

/-- Whatever statements are run, also to a failure, the globals stay regular. -/
theorem all_runFrom (last : Value) : (i.runFrom last ss).2.env.All (Value.Regular W) := by
  induction ss generalizing i last with
  | nil => exact hi
  | cons s ss ih =>
      obtain ⟨hs, hss⟩ := List.forall_mem_cons.mp hss
      obtain ⟨-, henv⟩ := regular_runStatement hW hi hs
      rw [runFrom]
      cases hrun : i.runStatement s with
      | mk outcome j =>
          rw [hrun] at henv
          cases outcome with
          | ok v => exact ih henv hss v
          | error e => exact henv

/-- The value of a run is the one that the last statement gives. -/
theorem gives_of_runFrom {last v : Value} (hrun : (i.runFrom last ss).1 = .ok v) :
    (ss = [] ∧ v = last) ∨ ∃ s, ss.getLast? = some s ∧ s.Gives W v := by
  induction ss generalizing i last with
  | nil => exact .inl ⟨rfl, (Except.ok.inj hrun).symm⟩
  | cons s ss ih =>
      obtain ⟨hs, hss⟩ := List.forall_mem_cons.mp hss
      obtain ⟨hgives, henv⟩ := regular_runStatement hW hi hs
      cases hfirst : i.runStatement s with
      | mk outcome j =>
          rw [hfirst] at hgives henv
          cases outcome with
          | ok u =>
              rw [runFrom_cons_ok hfirst] at hrun
              rcases ih henv hss hrun with ⟨rfl, rfl⟩ | ⟨t, ht, hv⟩
              · exact .inr ⟨s, rfl, hgives _ rfl⟩
              · exact .inr ⟨t, by rw [List.getLast?_cons, ht]; rfl, hv⟩
          | error e =>
              rw [runFrom_cons_error hfirst] at hrun
              cases hrun

end Run

/-- Every state that the machine passes through holds regular values only. -/
theorem Visits.regular (hW : Expr.Evaluable W) {op : Operation} {m : Machine.State}
    (h : Visits i op m) (hi : i.env.All (Value.Regular W)) (hop : op.Evaluable W) :
    m.Regular W := by
  induction h with
  | expression h => exact h.regular hW ⟨hop, (fun _ hp => nomatch hp), hi⟩
  | call h => exact h.regular hW ⟨hop, (fun _ hp => nomatch hp), hi⟩
  | statement _ ih => exact ih hi hop
  | define _ ih => exact ih hi hop
  | first _ ih => exact ih hi (hop _ List.mem_cons_self)
  | later before _ ih =>
      obtain ⟨-, henv⟩ := regular_runStatement hW hi (hop _ List.mem_cons_self)
      rw [before] at henv
      exact ih henv fun s hs => hop s (List.mem_cons_of_mem _ hs)

/-- Every operation leaves the globals regular. -/
theorem all_perform (hW : Expr.Evaluable W) (hi : i.env.All (Value.Regular W)) {op : Operation}
    (hop : op.Evaluable W) : (i.perform op).env.All (Value.Regular W) := by
  cases op with
  | program p => exact all_runFrom hW hi hop .null
  | statement s => exact (regular_runStatement hW hi hop).2
  | expression e => rwa [perform, evaluate_interpreter]
  | call f args site => rwa [perform, call_interpreter]
  | reset => exact Environment.all_empty

end Interpreter

end Clausal
