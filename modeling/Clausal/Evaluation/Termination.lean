import Clausal.Evaluation.Machine

/-!
Every run of the machine ends. Entering a call uses up room on the stack, and leaving it puts the
interpreter back as it was, so an expression is worked off by induction on the room and, within one
body, on the expression. The list of what is pending is then worked off from its front.
-/

namespace Clausal.Machine

def Ends (s : State) : Prop := Acc (fun t s => step s = .next t) s

theorem ends_of_next {s t : State} (h : step s = .next t) (ht : Ends t) : Ends s :=
  ⟨s, fun _ hu => Step.next.inj (h.symm.trans hu) ▸ ht⟩

theorem ends_of_done {s : State} {o : Outcome} {i : Interpreter} (h : step s = .done o i) :
    Ends s :=
  ⟨s, fun _ hu => nomatch h.symm.trans hu⟩

/-- Whatever is delivered, the rest is worked off. -/
def EndsAfter (rest : List Pending) (i : Interpreter) : Prop :=
  ∀ outcome, Ends ⟨.deliver outcome, rest, i⟩

/-- Every call is worked off from this interpreter, if the rest is. -/
def CallsEnd (i : Interpreter) : Prop :=
  ∀ f args site rest, EndsAfter rest i → Ends ⟨.invoke f args site, rest, i⟩

theorem endsAfter_cons {p : Pending} {rest : List Pending} {i : Interpreter}
    (hv : ∀ v, Ends (receive v p rest i)) (he : ∀ e, Ends (unwind e p rest i)) :
    EndsAfter (p :: rest) i
  | .ok v => ends_of_next (by rfl) (hv v)
  | .error e => ends_of_next (by rfl) (he e)

theorem endsAfter_located {span : Span} {rest : List Pending} {i : Interpreter}
    (h : EndsAfter rest i) : EndsAfter (.located span :: rest) i :=
  endsAfter_cons (fun _ => h _) (fun _ => h _)

theorem ends_evaluate {e : Expr} {rest : List Pending} {i : Interpreter}
    (h : Ends (enter e (.located e.span :: rest) i)) : Ends ⟨.evaluate e, rest, i⟩ :=
  ends_of_next (by rfl) h

mutual

theorem ends_expression {i : Interpreter} (calls : CallsEnd i) :
    (e : Expr) → (rest : List Pending) → EndsAfter rest i → Ends ⟨.evaluate e, rest, i⟩
  | .number .., _, h | .string .., _, h | .boolean .., _, h | .matching .., _, h =>
    ends_evaluate (endsAfter_located h _)
  | .ident name _, _, h => ends_evaluate <| by
    unfold enter
    dsimp only
    split <;> exact endsAfter_located h _
  | .tuple [] _, _, h => ends_evaluate (endsAfter_located h _)
  | .tuple (e :: es) _, _, h =>
    ends_evaluate (ends_expression calls e _ (ends_elements calls es _ [] (endsAfter_located h)))
  | .unary _ a _, _, h =>
    ends_evaluate (ends_expression calls a _
      (endsAfter_cons (fun _ => endsAfter_located h _) (fun _ => endsAfter_located h _)))
  | .binary _ a b _, _, h =>
    ends_evaluate (ends_expression calls a _
      (endsAfter_cons
        (fun _ => ends_expression calls b _
          (endsAfter_cons (fun _ => endsAfter_located h _) (fun _ => endsAfter_located h _)))
        (fun _ => endsAfter_located h _)))
  | .call f args _, _, h =>
    ends_evaluate (ends_expression calls f _
      (endsAfter_cons
        (fun v => by
          show Ends (applyTo v args _ _ i)
          unfold applyTo
          split
          · exact ends_arguments calls args _ _ [] _ (endsAfter_located h)
          · exact endsAfter_located h _)
        (fun _ => endsAfter_located h _)))

theorem ends_elements {i : Interpreter} (calls : CallsEnd i) :
    (es : List Expr) → (rest : List Pending) → (earlier : List Value) → EndsAfter rest i →
      EndsAfter (.elements earlier es :: rest) i
  | [], _, _, h => endsAfter_cons (fun _ => h _) (fun _ => h _)
  | e :: es, _, _, h =>
    endsAfter_cons
      (fun _ => ends_expression calls e _ (ends_elements calls es _ _ h)) (fun _ => h _)

theorem ends_arguments {i : Interpreter} (calls : CallsEnd i) :
    (es : List Expr) → (rest : List Pending) → (f : FunctionValue) → (earlier : List Value) →
      (site : Span) → EndsAfter rest i → Ends (proceed f earlier es site rest i)
  | [], rest, f, earlier, site, h => calls f earlier.reverse (some site) rest h
  | e :: es, _, _, _, _, h =>
    ends_expression calls e _
      (endsAfter_cons (fun _ => ends_arguments calls es _ _ _ _ h) (fun _ => h _))

end

theorem ends_applyTo {i : Interpreter} (calls : CallsEnd i) (v : Value) (args : List Expr)
    (site : Span) (rest : List Pending) (h : EndsAfter rest i) :
    Ends (applyTo v args site rest i) := by
  unfold applyTo
  split
  · exact ends_arguments calls args rest _ [] site h
  · exact h _

theorem ends_branch {i : Interpreter} (calls : CallsEnd i) (v : Value) (condition : Span)
    (body : Expr) (later : List Clause) (place : Span) (rest : List Pending)
    (h : EndsAfter rest i) (hlater : Ends ⟨.choose later place, rest, i⟩) :
    Ends (branch v condition body later place rest i) := by
  unfold branch
  split
  · exact ends_expression calls body rest h
  · exact hlater
  · exact h _

theorem ends_choose {i : Interpreter} (calls : CallsEnd i) (place : Span) (rest : List Pending)
    (h : EndsAfter rest i) (clauses : List Clause) : Ends ⟨.choose clauses place, rest, i⟩ := by
  induction clauses with
  | nil => exact ends_of_next (by rfl) (h _)
  | cons clause later ih =>
    cases clause with
    | catchAll body _ => exact ends_of_next (by rfl) (ends_expression calls body rest h)
    | guarded condition body _ =>
      refine ends_of_next (by rfl) (ends_expression calls condition _ ?_)
      exact endsAfter_cons (fun v => ends_branch calls v _ body later place rest h ih)
        (fun _ => h _)

/-- Leaving a call puts back the interpreter that made it. -/
theorem interpreter_after_leave {i : Interpreter} {stack : CallStack} {frame : Frame}
    (locals : Option Scope) (h : i.stack.push? frame = some stack) :
    (⟨(i.env.withLocals locals).withLocals i.env.locals, stack.pop⟩ : Interpreter) = i := by
  rw [CallStack.pop_push? h]
  rfl

theorem callsEnd_of_room (room : Nat) (i : Interpreter)
    (h : i.stack.capacity - i.stack.depth ≤ room) : CallsEnd i := by
  intro f args site rest hrest
  refine ends_of_next (by rfl) ?_
  show Ends (call f args site rest i)
  unfold call
  split
  · split
    · next stack hpush =>
      obtain ⟨hdepth, hcapacity, hroom⟩ := CallStack.depth_push? hpush
      have back := interpreter_after_leave (some (.ofList (f.params.zip args))) hpush
      match room with
      | 0 => omega
      | room + 1 =>
        refine ends_choose (callsEnd_of_room room _ ?_) _ _ ?_ _
        · show stack.capacity - stack.depth ≤ room
          omega
        · refine endsAfter_cons (fun v => ?_) (fun e => ?_)
          · exact back ▸ hrest (.ok v)
          · exact back ▸ hrest (.error (stack.attach e))
    · exact hrest _
  · exact hrest _

theorem callsEnd (i : Interpreter) : CallsEnd i := callsEnd_of_room _ i (Nat.le_refl _)

theorem endsAfter (rest : List Pending) (i : Interpreter) : EndsAfter rest i := by
  induction rest generalizing i with
  | nil => exact fun _ => ends_of_done rfl
  | cons p rest ih =>
    refine endsAfter_cons (fun v => ?_) (fun e => ?_)
    · cases p with
      | rightOperand op right =>
        exact ends_expression (callsEnd i) right _
          (endsAfter_cons (fun _ => ih i _) (fun _ => ih i _))
      | combine op left => exact ih i _
      | operate op => exact ih i _
      | elements earlier later =>
        cases later with
        | nil => exact ih i _
        | cons e es =>
          exact ends_expression (callsEnd i) e _ (ends_elements (callsEnd i) es _ _ (ih i))
      | callee args site => exact ends_applyTo (callsEnd i) v args site rest (ih i)
      | arguments f earlier later site =>
        exact ends_arguments (callsEnd i) later _ _ _ _ (ih i)
      | guard condition body later place =>
        exact ends_branch (callsEnd i) v condition body later place rest (ih i)
          (ends_choose (callsEnd i) place rest (ih i) later)
      | located span => exact ih i _
      | leave saved => exact ih _ _
    · cases p <;> exact ih _ _

/-- The machine comes to an end from every state. -/
theorem ends (s : State) : Ends s := by
  obtain ⟨control, pending, i⟩ := s
  cases control with
  | evaluate e => exact ends_expression (callsEnd i) e pending (endsAfter pending i)
  | choose clauses place => exact ends_choose (callsEnd i) place pending (endsAfter pending i) _
  | invoke f args site => exact callsEnd i f args site pending (endsAfter pending i)
  | deliver outcome => exact endsAfter pending i outcome

end Clausal.Machine
