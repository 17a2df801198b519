import Clausal.Proofs.Evaluation.Purity

/-!
Every call is made by a call expression. From the moment at which a call expression comes to be
evaluated, what is pending for its function and its arguments stands in front of what gives an
error the place of the expression, and remembers this place for the call.
-/

namespace Clausal.Machine

/-- A call expression at the site, with this left to do after it, has come to be evaluated before
the machine got to the last state. -/
def Called (s t : State) (site : Span) (after : List Pending) : Prop :=
  ∃ callee args i, Reaches s ⟨.evaluate (.call callee args site), after, i⟩ ∧
    Reaches ⟨.evaluate (.call callee args site), after, i⟩ t

/-- The site that an entry remembers for the call that it prepares. -/
def Pending.site? : Pending → Option Span
  | .callee _ site | .arguments _ _ _ site => some site
  | _ => none

/-- Each call that is prepared is that of a call expression which is still to be left. -/
def Prepared (P : Span → List Pending → Prop) : List Pending → Prop
  | [] => True
  | p :: rest =>
    (∀ site, p.site? = some site → ∃ after, rest = .located site :: after ∧ P site after) ∧
      Prepared P rest

structure State.Prepared (P : Span → List Pending → Prop) (t : State) : Prop where
  pending : Machine.Prepared P t.pending
  invoked : ∀ f args site?, t.control = .invoke f args site? → ∃ site after,
    site? = some site ∧ t.pending = .located site :: after ∧ P site after

section Prepared

variable {P : Span → List Pending → Prop} {rest : List Pending}

theorem prepared_nil : Prepared P [] := trivial

theorem prepared_cons {p : Pending} (hp : p.site? = none) (h : Prepared P rest) :
    Prepared P (p :: rest) :=
  ⟨(fun _ hsite => nomatch hp.symm.trans hsite), h⟩

theorem prepared_call_cons {p : Pending} {site : Span} {after : List Pending}
    (hp : p.site? = some site) (h : Prepared P (.located site :: after)) (called : P site after) :
    Prepared P (p :: .located site :: after) := by
  refine ⟨fun site' hsite => ?_, h⟩
  cases hp.symm.trans hsite
  exact ⟨after, rfl, called⟩

theorem prepared_state {c : Control} (hc : ∀ f args site, c ≠ .invoke f args site)
    (h : Prepared P rest) (i : Interpreter) : State.Prepared P ⟨c, rest, i⟩ :=
  ⟨h, fun f args site hinvoked => absurd hinvoked (hc f args site)⟩

theorem prepared_evaluate (e : Expr) (h : Prepared P rest) (i : Interpreter) :
    State.Prepared P ⟨.evaluate e, rest, i⟩ :=
  prepared_state (by rintro f args site ⟨⟩) h i

theorem prepared_deliver (outcome : Outcome) (h : Prepared P rest) (i : Interpreter) :
    State.Prepared P ⟨.deliver outcome, rest, i⟩ :=
  prepared_state (by rintro f args site ⟨⟩) h i

theorem prepared_choose (clauses : List Clause) (place : Span) (h : Prepared P rest)
    (i : Interpreter) : State.Prepared P ⟨.choose clauses place, rest, i⟩ :=
  prepared_state (by rintro f args site ⟨⟩) h i

/-- Where a call is entered, its own place is left right below it. -/
theorem prepared_enter {e : Expr} (i : Interpreter) (h : Prepared P rest)
    (called : ∀ callee args site, e = .call callee args site → P site rest) :
    (enter e (.located e.span :: rest) i).Prepared P := by
  have hlocated : Prepared P (.located e.span :: rest) := prepared_cons rfl h
  unfold enter
  split
  case h_6 => split <;> exact prepared_deliver _ hlocated i
  case h_9 f args site =>
    exact prepared_evaluate _ (prepared_call_cons rfl hlocated (called f args site rfl)) i
  all_goals first
    | exact prepared_deliver _ hlocated i
    | exact prepared_evaluate _ (prepared_cons rfl hlocated) i

/-- A function that is called leaves what was pending, and it is prepared as before. -/
theorem prepared_call (f : FunctionValue) (args : List Value) (site : Option Span)
    (i : Interpreter) (h : Prepared P rest) : (call f args site rest i).Prepared P := by
  unfold call
  split
  · split
    · exact prepared_choose _ _ (prepared_cons rfl h) _
    · exact prepared_deliver _ h i
  · exact prepared_deliver _ h i

theorem prepared_proceed (f : FunctionValue) (earlier : List Value) (later : List Expr)
    {site : Span} {after : List Pending} (i : Interpreter)
    (h : Prepared P (.located site :: after)) (called : P site after) :
    (proceed f earlier later site (.located site :: after) i).Prepared P := by
  cases later with
  | nil =>
      refine ⟨h, fun f' args site? hinvoked => ?_⟩
      cases hinvoked
      exact ⟨site, after, rfl, rfl, called⟩
  | cons e es => exact prepared_evaluate e (prepared_call_cons rfl h called) i

theorem prepared_receive (v : Value) {p : Pending} (i : Interpreter)
    (h : Prepared P (p :: rest)) : (receive v p rest i).Prepared P := by
  obtain ⟨hp, hrest⟩ := h
  cases p with
  | rightOperand op right => exact prepared_evaluate right (prepared_cons rfl hrest) i
  | elements earlier later =>
      cases later with
      | nil => exact prepared_deliver _ hrest i
      | cons e es => exact prepared_evaluate e (prepared_cons rfl hrest) i
  | callee args site =>
      obtain ⟨after, rfl, called⟩ := hp site rfl
      simp only [receive, applyTo]
      split
      · exact prepared_proceed _ _ _ i hrest called
      · exact prepared_deliver _ hrest i
  | arguments f earlier later site =>
      obtain ⟨after, rfl, called⟩ := hp site rfl
      exact prepared_proceed f _ later i hrest called
  | guard condition body later place =>
      simp only [receive, branch]
      split
      · exact prepared_evaluate body hrest i
      · exact prepared_choose later place hrest i
      · exact prepared_deliver _ hrest i
  | _ => exact prepared_deliver _ hrest _

theorem prepared_unwind (e : EvalError) {p : Pending} (i : Interpreter)
    (h : Prepared P (p :: rest)) : (unwind e p rest i).Prepared P := by
  cases p <;> exact prepared_deliver _ h.2 _

end Prepared

/-- A step keeps every call prepared, where the call expressions it evaluates are as asked. -/
theorem prepared_of_step {P : Span → List Pending → Prop} {t u : State} (ht : t.Prepared P)
    (called : ∀ callee args site, t.control = .evaluate (.call callee args site) →
      P site t.pending)
    (next : step t = .next u) : u.Prepared P := by
  obtain ⟨control, pending, i⟩ := t
  have hpending : Prepared P pending := ht.pending
  cases control with
  | evaluate e =>
      cases next
      refine prepared_enter i hpending fun callee args site he => ?_
      exact called callee args site (congrArg Control.evaluate he)
  | choose clauses place =>
      cases clauses with
      | nil =>
          cases next
          exact prepared_deliver _ hpending i
      | cons clause later =>
          cases clause with
          | guarded condition body span =>
              cases next
              exact prepared_evaluate condition (prepared_cons rfl hpending) i
          | catchAll body span =>
              cases next
              exact prepared_evaluate body hpending i
  | invoke f args site =>
      cases next
      exact prepared_call f args site i hpending
  | deliver outcome =>
      cases pending with
      | nil => cases next
      | cons p rest =>
          cases outcome with
          | ok v =>
              cases next
              exact prepared_receive v i hpending
          | error e =>
              cases next
              exact prepared_unwind e i hpending

theorem Prepared.mono {P Q : Span → List Pending → Prop} (hle : ∀ site after, P site after →
    Q site after) {pending : List Pending} (h : Prepared P pending) : Prepared Q pending := by
  induction pending with
  | nil => trivial
  | cons p rest ih =>
      refine ⟨fun site hsite => ?_, ih h.2⟩
      obtain ⟨after, hrest, called⟩ := h.1 site hsite
      exact ⟨after, hrest, hle site after called⟩

theorem State.Prepared.mono {P Q : Span → List Pending → Prop} (hle : ∀ site after,
    P site after → Q site after) {t : State} (h : t.Prepared P) : t.Prepared Q := by
  refine ⟨h.pending.mono hle, fun f args site? hinvoked => ?_⟩
  obtain ⟨site, after, hsite, hpending, called⟩ := h.invoked f args site? hinvoked
  exact ⟨site, after, hsite, hpending, hle site after called⟩

/-- Every call on the way is that of a call expression that was evaluated before. -/
theorem Reaches.prepared {e : Expr} {i : Interpreter} {t : State}
    (h : Reaches ⟨.evaluate e, [], i⟩ t) : t.Prepared (Called ⟨.evaluate e, [], i⟩ t) := by
  induction h with
  | start => exact prepared_evaluate e prepared_nil i
  | @step t u before next ih =>
      have hnow : u.Prepared (Called ⟨.evaluate e, [], i⟩ t) := by
        refine prepared_of_step ih (fun callee args site hcontrol => ?_) next
        obtain ⟨control, pending, k⟩ := t
        obtain rfl : control = .evaluate (.call callee args site) := hcontrol
        exact ⟨callee, args, k, before, .start⟩
      refine hnow.mono fun site after called => ?_
      obtain ⟨callee, args, k, hexpression, hlater⟩ := called
      exact ⟨callee, args, k, hexpression, hlater.step next⟩

/-- A function is called only for a call expression: for one at the site that the call is given,
which has come to be evaluated before and which is still to be left. -/
theorem Reaches.exists_called {e : Expr} {i : Interpreter} {t : State}
    (h : Reaches ⟨.evaluate e, [], i⟩ t) (f : FunctionValue) (args : List Value)
    (site? : Option Span) (invoked : t.control = .invoke f args site?) :
    ∃ site after, site? = some site ∧ t.pending = .located site :: after ∧
      Called ⟨.evaluate e, [], i⟩ t site after :=
  h.prepared.invoked f args site? invoked

end Clausal.Machine
