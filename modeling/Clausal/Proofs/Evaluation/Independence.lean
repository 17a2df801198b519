import Mathlib
import Clausal.Proofs.Evaluation.Scope
import Clausal.Proofs.Tree.Parts

/-!
Names that do not matter. A run looks for no names but those that occur in the trees it evaluates:
parts of the expression that it was given, and of the bodies of the functions among the values that
it meets. A global under any other name may have any value or none, and no step tells the
difference. So two declarations commute whose names occur neither in each other nor in the functions
among the globals.
-/

namespace Clausal

/-- The name does not occur in the expression, at any depth. -/
def Expr.Avoids (name : String) (e : Expr) : Prop := ∀ span, .ident name span ∉ e.parts

/-- The name does not occur in the expressions of the statement. What the statement itself declares
is no occurrence. -/
def Statement.Avoids (name : String) (s : Statement) : Prop := ∀ span, .ident name span ∉ s.parts

theorem Expr.closed_avoids (name : String) : Closed (Avoids name) := by
  refine Closed.of_cover fun e he => ⟨_, closed_parts_subset e.parts, List.Subset.refl _, ?_⟩
  exact fun x hx span hmem => he span (hx hmem)

theorem Expr.Avoids.ne {name other : String} {span : Span} (h : (ident other span).Avoids name) :
    other ≠ name := by
  rintro rfl
  exact h span (mem_parts_self _)

/-- The trees in the value are like this: those that the functions in it have as their bodies, also
inside tuples. -/
inductive Value.Trees (W : Expr → Prop) : Value → Prop
  | number (x : Float) : Trees W (.number x)
  | string (s : String) : Trees W (.string s)
  | boolean (b : Bool) : Trees W (.boolean b)
  | null : Trees W .null
  | tuple {vs : List Value} (elements : ∀ v ∈ vs, Trees W v) : Trees W (.tuple vs)
  | function {f : FunctionValue} (body : W f.body.toExpr) : Trees W (.function f)

theorem Value.Trees.body {W : Expr → Prop} {f : FunctionValue}
    (h : (Value.function f).Trees W) : W f.body.toExpr := by
  cases h with
  | function body => exact body

section Trees

variable (W : Expr → Prop)

def Outcome.Trees : Outcome → Prop
  | .ok v => v.Trees W
  | .error _ => True

namespace Machine

def Control.Trees : Control → Prop
  | .evaluate e => W e
  | .choose clauses _ => ∀ c ∈ clauses, c.All W
  | .invoke f args _ => W f.body.toExpr ∧ ∀ v ∈ args, v.Trees W
  | .deliver outcome => Outcome.Trees W outcome

def Pending.Trees : Pending → Prop
  | .rightOperand _ right => W right
  | .combine _ left => left.Trees W
  | .operate _ | .located _ => True
  | .elements earlier later => (∀ v ∈ earlier, v.Trees W) ∧ ∀ e ∈ later, W e
  | .callee args _ => ∀ e ∈ args, W e
  | .arguments f earlier later _ =>
    W f.body.toExpr ∧ (∀ v ∈ earlier, v.Trees W) ∧ ∀ e ∈ later, W e
  | .guard _ body later _ => W body ∧ ∀ c ∈ later, c.All W
  | .leave saved => ∀ s, saved = some s → s.All (Value.Trees W)

/-- All trees in the state are like this: what is still to be evaluated, and the bodies of all
functions among the values. -/
structure State.Trees (s : State) : Prop where
  control : s.control.Trees W
  pending : ∀ p ∈ s.pending, p.Trees W
  env : s.interpreter.env.All (Value.Trees W)

end Machine

end Trees

variable {W : Expr → Prop}

theorem BinaryOp.trees_apply (op : BinaryOp) (v w : Value) : Outcome.Trees W (op.apply v w) :=
  op.apply_cases Value.Trees.number Value.Trees.string Value.Trees.boolean (fun _ => trivial) v w

theorem UnaryOp.trees_apply (op : UnaryOp) (v : Value) : Outcome.Trees W (op.apply v) :=
  op.apply_cases Value.Trees.number Value.Trees.boolean (fun _ => trivial) v

namespace Machine

section Steps

variable {rest : List Pending} (hrest : ∀ p ∈ rest, p.Trees W) {i : Interpreter}
  (hi : i.env.All (Value.Trees W))

include hrest hi

theorem trees_awaiting {e : Expr} {p : Pending} (he : W e) (hp : p.Trees W) :
    State.Trees W ⟨.evaluate e, p :: rest, i⟩ :=
  ⟨he, List.forall_mem_cons.mpr ⟨hp, hrest⟩, hi⟩

theorem trees_proceed {f : FunctionValue} {earlier : List Value} {later : List Expr} {site : Span}
    (hf : W f.body.toExpr) (hearlier : ∀ v ∈ earlier, v.Trees W) (hlater : ∀ e ∈ later, W e) :
    (proceed f earlier later site rest i).Trees W := by
  cases later with
  | nil => exact ⟨⟨hf, fun v hv => hearlier v (List.mem_reverse.mp hv)⟩, hrest, hi⟩
  | cons e es =>
      obtain ⟨he, hes⟩ := List.forall_mem_cons.mp hlater
      exact trees_awaiting hrest hi he ⟨hf, hearlier, hes⟩

theorem trees_receive {v : Value} {p : Pending} (hv : v.Trees W) (hp : p.Trees W) :
    (receive v p rest i).Trees W := by
  cases p with
  | rightOperand op right => exact trees_awaiting hrest hi hp hv
  | combine op left => exact ⟨op.trees_apply left v, hrest, hi⟩
  | operate op => exact ⟨op.trees_apply v, hrest, hi⟩
  | elements earlier later =>
      obtain ⟨hearlier, hlater⟩ := hp
      have hvs : ∀ w ∈ v :: earlier, w.Trees W := List.forall_mem_cons.mpr ⟨hv, hearlier⟩
      cases later with
      | nil =>
          have htuple : (Value.tuple (v :: earlier).reverse).Trees W :=
            .tuple fun w hw => hvs w (List.mem_reverse.mp hw)
          exact ⟨htuple, hrest, hi⟩
      | cons e es =>
          obtain ⟨he, hes⟩ := List.forall_mem_cons.mp hlater
          exact trees_awaiting hrest hi he ⟨hvs, hes⟩
  | callee args site =>
      simp only [receive, applyTo]
      split
      · exact trees_proceed hrest hi hv.body (by simp) hp
      · exact ⟨trivial, hrest, hi⟩
  | arguments f earlier later site =>
      obtain ⟨hf, hearlier, hlater⟩ := hp
      exact trees_proceed hrest hi hf (List.forall_mem_cons.mpr ⟨hv, hearlier⟩) hlater
  | guard condition body later place =>
      simp only [receive, branch]
      split
      · exact ⟨hp.1, hrest, hi⟩
      · exact ⟨hp.2, hrest, hi⟩
      · exact ⟨trivial, hrest, hi⟩
  | located span => exact ⟨hv, hrest, hi⟩
  | leave saved => exact ⟨hv, hrest, ⟨hi.globals, hp⟩⟩

theorem trees_unwind {e : EvalError} {p : Pending} (hp : p.Trees W) :
    (unwind e p rest i).Trees W := by
  cases p with
  | leave saved => exact ⟨trivial, hrest, ⟨hi.globals, hp⟩⟩
  | _ => exact ⟨trivial, hrest, hi⟩

variable (hW : Expr.Closed W)

include hW

theorem trees_enter {e : Expr} (he : W e) : (enter e rest i).Trees W := by
  cases e with
  | number value raw s => exact ⟨Value.Trees.number value, hrest, hi⟩
  | string value raw s => exact ⟨Value.Trees.string value, hrest, hi⟩
  | boolean value raw s => exact ⟨Value.Trees.boolean value, hrest, hi⟩
  | tuple es s =>
      cases es with
      | nil => exact ⟨Value.Trees.tuple (by simp), hrest, hi⟩
      | cons e es =>
          obtain ⟨he, hes⟩ := List.forall_mem_cons.mp (hW.tuple he)
          exact trees_awaiting hrest hi he ⟨by simp, hes⟩
  | ident name s =>
      unfold enter
      dsimp only
      split
      · next v hv => exact ⟨hi.lookup? hv, hrest, hi⟩
      · exact ⟨trivial, hrest, hi⟩
  | binary op a b s =>
      obtain ⟨ha, hb⟩ := hW.binary he
      exact trees_awaiting hrest hi ha hb
  | unary op a s => exact trees_awaiting hrest hi (hW.unary he) trivial
  | call f args s =>
      obtain ⟨hf, hargs⟩ := hW.call he
      exact trees_awaiting hrest hi hf hargs
  | matching params clauses s =>
      have hfunction : (Value.function (.anonymous ⟨params, clauses, s⟩)).Trees W := .function he
      exact ⟨hfunction, hrest, hi⟩

theorem trees_call {f : FunctionValue} {args : List Value} {site : Option Span}
    (hf : W f.body.toExpr) (hargs : ∀ v ∈ args, v.Trees W) :
    (Machine.call f args site rest i).Trees W := by
  unfold Machine.call
  split
  · split
    · have hscope : (Scope.ofList (f.params.zip args)).All (Value.Trees W) :=
        Scope.all_ofList fun b hb => hargs b.2 (List.of_mem_zip hb).2
      refine ⟨hW.matching hf, List.forall_mem_cons.mpr ⟨hi.locals, hrest⟩, hi.globals, ?_⟩
      exact fun s hs => Option.some.inj hs ▸ hscope
    · exact ⟨trivial, hrest, hi⟩
  · exact ⟨trivial, hrest, hi⟩

end Steps

/-- A step evaluates parts of the trees in the state, and makes functions of such parts only. -/
theorem State.Trees.step (hW : Expr.Closed W) {s t : State} (hs : s.Trees W)
    (h : step s = .next t) : t.Trees W := by
  obtain ⟨control, pending, i⟩ := s
  obtain ⟨hcontrol, hpending, hi⟩ := hs
  cases control with
  | evaluate e =>
      cases h
      have hlocated : Pending.Trees W (.located e.span) := trivial
      exact trees_enter (List.forall_mem_cons.mpr ⟨hlocated, hpending⟩) hi hW hcontrol
  | choose clauses place =>
      cases clauses with
      | nil =>
          cases h
          exact ⟨trivial, hpending, hi⟩
      | cons clause later =>
          obtain ⟨hclause, hlater⟩ := List.forall_mem_cons.mp hcontrol
          cases clause with
          | guarded condition body s =>
              cases h
              obtain ⟨hcondition, hbody⟩ := hclause
              exact trees_awaiting hpending hi hcondition ⟨hbody, hlater⟩
          | catchAll body s =>
              cases h
              exact ⟨hclause, hpending, hi⟩
  | invoke f args site =>
      cases h
      exact trees_call hpending hi hW hcontrol.1 hcontrol.2
  | deliver outcome =>
      cases pending with
      | nil => cases h
      | cons p rest =>
          obtain ⟨hp, hrest⟩ := List.forall_mem_cons.mp hpending
          cases outcome with
          | ok v =>
              cases h
              exact trees_receive hrest hi hcontrol hp
          | error e =>
              cases h
              exact trees_unwind hrest hi hp

end Machine

def Interpreter.define (i : Interpreter) (name : String) (value : Value) : Interpreter :=
  { i with env := i.env.defineGlobal name value }

theorem Environment.lookup?_defineGlobal_of_ne {name other : String} (h : other ≠ name)
    (env : Environment) (value : Value) :
    (env.defineGlobal name value).lookup? other = env.lookup? other := by
  simp only [lookup?, defineGlobal, Scope.lookup?_define_of_ne h]

/-- Of two bindings under different names either may be made first. -/
theorem Scope.define_comm {a b : String} (h : a ≠ b) (s : Scope) (v w : Value) :
    (s.define a v).define b w = (s.define b w).define a v := by
  refine ext_lookup? fun name => ?_
  simp only [lookup?_define]
  by_cases ha : name = a
  · rw [if_pos ha, if_neg (ha ▸ h), if_pos ha]
  · rw [if_neg ha, if_neg ha]

theorem Interpreter.define_comm {a b : String} (h : a ≠ b) (i : Interpreter) (v w : Value) :
    (i.define a v).define b w = (i.define b w).define a v := by
  have hglobals := Scope.define_comm h i.env.globals v w
  simp only [define, Environment.defineGlobal, hglobals]

namespace Machine

section Define

variable (name : String) (value : Value)

def State.define (s : State) : State := { s with interpreter := s.interpreter.define name value }

def Step.define : Step → Step
  | .next s => .next (s.define name value)
  | .done outcome i => .done outcome (i.define name value)

variable {name} (rest : List Pending) (i : Interpreter)

/-- A name is looked up only where it occurs. -/
theorem enter_define {e : Expr} (he : e.Avoids name) :
    enter e rest (i.define name value) = (enter e rest i).define name value := by
  cases e with
  | ident other s =>
      have hlookup : (i.define name value).env.lookup? other = i.env.lookup? other :=
        Environment.lookup?_defineGlobal_of_ne he.ne i.env value
      simp only [enter, hlookup]
      cases i.env.lookup? other <;> rfl
  | tuple es s => cases es <;> rfl
  | _ => rfl

variable (name)

theorem call_define (f : FunctionValue) (args : List Value) (site : Option Span) :
    call f args site rest (i.define name value) =
      (call f args site rest i).define name value := by
  have hpush : (i.define name value).stack.push? ⟨f.name, site⟩ = i.stack.push? ⟨f.name, site⟩ :=
    rfl
  unfold call
  rw [hpush]
  split
  · cases i.stack.push? ⟨f.name, site⟩ <;> rfl
  · rfl

theorem proceed_define (f : FunctionValue) (earlier : List Value) (later : List Expr)
    (site : Span) :
    proceed f earlier later site rest (i.define name value) =
      (proceed f earlier later site rest i).define name value := by
  cases later <;> rfl

theorem receive_define (v : Value) (p : Pending) :
    receive v p rest (i.define name value) = (receive v p rest i).define name value := by
  cases p with
  | elements earlier later => cases later <;> rfl
  | callee args site =>
      cases v with
      | function f => exact proceed_define name value rest i f [] args site
      | _ => rfl
  | arguments f earlier later site =>
      exact proceed_define name value rest i f (v :: earlier) later site
  | guard condition body later place =>
      cases v with
      | boolean b => cases b <;> rfl
      | _ => rfl
  | _ => rfl

theorem unwind_define (e : EvalError) (p : Pending) :
    unwind e p rest (i.define name value) = (unwind e p rest i).define name value := by
  cases p <;> rfl

end Define

variable {name : String}

/-- A global whose name does not occur makes no difference to a step. -/
theorem step_define {s : State} (hs : s.Trees (Expr.Avoids name)) (value : Value) :
    step (s.define name value) = (step s).define name value := by
  obtain ⟨control, pending, i⟩ := s
  cases control with
  | evaluate e =>
      exact congrArg Step.next (enter_define value (.located e.span :: pending) i hs.control)
  | choose clauses place =>
      cases clauses with
      | nil => rfl
      | cons clause later => cases clause <;> rfl
  | invoke f args site => exact congrArg Step.next (call_define name value pending i f args site)
  | deliver outcome =>
      cases pending with
      | nil => rfl
      | cons p rest =>
          cases outcome with
          | ok v => exact congrArg Step.next (receive_define name value rest i v p)
          | error e => exact congrArg Step.next (unwind_define name value rest i e p)

/-- Nor to a run. -/
theorem run_define {s : State} (hs : s.Trees (Expr.Avoids name)) (value : Value) :
    run (s.define name value) = ((run s).1, (run s).2.define name value) := by
  have hends := ends s
  induction hends with
  | intro s _ ih =>
      have hstep := step_define hs value
      cases hnext : step s with
      | next t =>
          rw [hnext] at hstep
          rw [run_of_next hnext, run_of_next hstep]
          exact ih t hnext (hs.step (Expr.closed_avoids name) hnext)
      | done outcome i =>
          rw [hnext] at hstep
          rw [run_of_done hnext, run_of_done hstep]

end Machine

namespace Interpreter

variable {i : Interpreter} {name : String}

theorem evaluate_define (hi : i.env.All (Value.Trees (Expr.Avoids name))) {e : Expr}
    (he : e.Avoids name) (value : Value) :
    ((i.define name value).evaluate e).1 = (i.evaluate e).1 := by
  have hstart : Machine.State.Trees (Expr.Avoids name) ⟨.evaluate e, [], i⟩ :=
    ⟨he, (fun _ hp => nomatch hp), hi⟩
  change (Machine.run (Machine.State.define name value ⟨.evaluate e, [], i⟩)).1 = _
  rw [Machine.run_define hstart]
  rfl

/-- What a declaration comes to: the value that it binds, if it has one, and no other change. -/
theorem runStatement_declared {s : Statement} (hs : s.declares? = some name) {v : Value}
    {j : Interpreter} (h : i.runStatement s = (.ok v, j)) : j = i.define name v := by
  rcases runStatement_cases i s with ⟨u, other, hother, hrun⟩ | ⟨u, hnone, hrun⟩ | ⟨e, hrun⟩
  · obtain rfl : name = other := Option.some.inj (hs.symm.trans hother)
    cases hrun.symm.trans h
    rfl
  · cases hs.symm.trans hnone
  · cases hrun.symm.trans h

/-- The value of a declaration is told by the globals whose names occur in it. -/
theorem runStatement_define (hi : i.env.All (Value.Trees (Expr.Avoids name))) {s : Statement}
    (hs : s.Avoids name) (value : Value) :
    ((i.define name value).runStatement s).1 = (i.runStatement s).1 := by
  cases s with
  | define typeName other init span =>
      have hsame := evaluate_define hi hs value
      simp only [runStatement]
      revert hsame
      obtain ⟨outcome, j⟩ := i.evaluate init
      obtain ⟨outcome', j'⟩ := (i.define name value).evaluate init
      rintro rfl
      cases outcome' <;> rfl
  | function d span => rfl
  | expression e span => exact evaluate_define hi hs value
  | comment text span => rfl

/-- Independent declarations commute. If a declaration and then another one succeed, whose names
differ and occur neither in each other nor in the functions among the globals, then they succeed in
the other order as well, each has the value that it had, and the bindings are the same in the
end. -/
theorem declarations_commute {i j k : Interpreter} (hidle : i.Idle) {s t : Statement}
    {x y : String} (hs : s.declares? = some x) (ht : t.declares? = some y) (hne : x ≠ y)
    (hsy : s.Avoids y) (htx : t.Avoids x)
    (hglobals : i.globals.All fun u => u.Trees (Expr.Avoids x) ∧ u.Trees (Expr.Avoids y))
    {v w : Value} (hfirst : i.runStatement s = (.ok v, j))
    (hsecond : j.runStatement t = (.ok w, k)) :
    ∃ l, i.runStatement t = (.ok w, l) ∧ l.runStatement s = (.ok v, k) := by
  have hnoLocals : ∀ V : Value → Prop, ∀ scope, i.env.locals = some scope → scope.All V :=
    fun _ scope hscope => by cases hidle.locals.symm.trans hscope
  have hx : i.env.All (Value.Trees (Expr.Avoids x)) :=
    ⟨fun b hb => (hglobals b hb).1, hnoLocals _⟩
  have hy : i.env.All (Value.Trees (Expr.Avoids y)) :=
    ⟨fun b hb => (hglobals b hb).2, hnoLocals _⟩
  obtain rfl := runStatement_declared hs hfirst
  obtain rfl := runStatement_declared ht hsecond
  have hsecond' : (i.runStatement t).1 = .ok w := by
    rw [← runStatement_define hx htx v, hsecond]
  have hfirst' : ((i.define y w).runStatement s).1 = .ok v := by
    rw [runStatement_define hy hsy w, hfirst]
  have hl : i.runStatement t = (.ok w, i.define y w) :=
    Prod.ext hsecond' (runStatement_declared ht (Prod.ext hsecond' rfl))
  have hk : (i.define y w).runStatement s = (.ok v, (i.define y w).define x v) :=
    Prod.ext hfirst' (runStatement_declared hs (Prod.ext hfirst' rfl))
  exact ⟨i.define y w, hl, by rw [hk, define_comm hne]⟩

/-- A function that is neither named `a` nor `b`, and calls nothing. -/
private def opposite : FunctionValue :=
  ⟨"opposite", ["n"], .always [⟨"n", .point 0⟩] (.unary .not (.ident "n" (.point 1)) (.point 1))⟩

/-- The function is bound, and again in a tuple; `b` is bound as well. -/
private def holding : Interpreter :=
  ⟨⟨.ofList [("b", .null), ("opposite", .function opposite),
    ("pair", .tuple [.function opposite, .null])], none⟩, .empty (some 5)⟩

private def variableA : Statement :=
  .define "bool" "a" (.call (.ident "opposite" (.point 2)) [.boolean true "true" (.point 3)]
    (.point 2)) (.point 2)

private def functionB : Statement :=
  .function ⟨"b", ["bool"], "bool", ["n"], .always [⟨"n", .point 4⟩]
    (.call (.ident "b" (.point 5)) [.ident "n" (.point 6)] (.point 5))⟩ (.point 4)

/-- A variable and a function, whose name was bound before, declared in both orders. -/
theorem declarations_commute_redeclared :
    holding.Idle ∧ variableA.Avoids "b" ∧ functionB.Avoids "a" ∧
      (holding.globals.All fun u => u.Trees (Expr.Avoids "a") ∧ u.Trees (Expr.Avoids "b")) ∧
      ∃ w j k l, holding.runStatement variableA = (.ok (.boolean false), j) ∧
        j.runStatement functionB = (.ok w, k) ∧ holding.runStatement functionB = (.ok w, l) ∧
        l.runStatement variableA = (.ok (.boolean false), k) := by
  have hidle : holding.Idle := ⟨rfl, rfl⟩
  have hs : variableA.Avoids "b" := by
    simp [Statement.Avoids, variableA, Statement.parts, Expr.parts]
  have ht : functionB.Avoids "a" := by
    simp [Statement.Avoids, functionB, Statement.parts, Expr.parts, Clause.parts, Match.always,
      Match.toExpr]
  have hopposite (name : String) (hname : name ≠ "n") :
      (Value.function opposite).Trees (Expr.Avoids name) := by
    refine .function ?_
    simp [Expr.Avoids, opposite, Expr.parts, Clause.parts, Match.always, Match.toExpr, hname]
  have hpair (name : String) (hname : name ≠ "n") :
      (Value.tuple [.function opposite, .null]).Trees (Expr.Avoids name) :=
    .tuple (by simp [hopposite name hname, Value.Trees.null])
  have hglobals : holding.globals.All fun u =>
      u.Trees (Expr.Avoids "a") ∧ u.Trees (Expr.Avoids "b") :=
    Scope.all_ofList (by simp [hopposite, hpair, Value.Trees.null])
  have hfirst : holding.runStatement variableA =
      (.ok (.boolean false), holding.define "a" (.boolean false)) := by
    cbv
  obtain ⟨l, hl, hk⟩ := declarations_commute hidle rfl rfl (by decide) hs ht hglobals hfirst rfl
  exact ⟨hidle, hs, ht, hglobals, _, _, _, l, hfirst, rfl, hl, hk⟩

end Interpreter

end Clausal
