import Clausal.Evaluation.Environment

/-!
The places in a tree: the spans of its expressions at any depth, guards and matches among them. A
value has places as well, in the bodies of the functions in it, and a scope has those of its values.
Nothing else that is read has its span recorded in a failure of a run.
-/

namespace Clausal

mutual

def Expr.places : Expr → List Span
  | .number _ _ s | .string _ _ s | .boolean _ _ s | .ident _ s => [s]
  | .tuple es s => s :: Expr.placesOfList es
  | .binary _ a b s => s :: (a.places ++ b.places)
  | .unary _ a s => s :: a.places
  | .call f args s => s :: (f.places ++ Expr.placesOfList args)
  | .matching _ clauses s => s :: Clause.placesOfList clauses

def Expr.placesOfList : List Expr → List Span
  | [] => []
  | e :: es => e.places ++ Expr.placesOfList es

def Clause.places : Clause → List Span
  | .guarded condition body _ => condition.places ++ body.places
  | .catchAll body _ => body.places

def Clause.placesOfList : List Clause → List Span
  | [] => []
  | c :: cs => c.places ++ Clause.placesOfList cs

end

def Match.places (m : Match) : List Span := m.span :: Clause.placesOfList m.clauses

def Statement.places : Statement → List Span
  | .define _ _ init _ => init.places
  | .function d _ => d.body.places
  | .expression e _ => e.places
  | .comment _ _ => []

def Program.places (p : Program) : List Span := p.statements.flatMap (·.places)

mutual

def Value.places : Value → List Span
  | .number _ | .string _ | .boolean _ | .null => []
  | .tuple vs => Value.placesOfList vs
  | .function f => f.body.places

def Value.placesOfList : List Value → List Span
  | [] => []
  | v :: vs => v.places ++ Value.placesOfList vs

end

def Scope.places (s : Scope) : List Span := s.bindings.flatMap (·.2.places)

theorem Expr.span_mem_places (e : Expr) : e.span ∈ e.places := by
  cases e <;> simp [Expr.places, Expr.span]

section Placed

variable (P : Span → Prop)

def Expr.Placed (e : Expr) : Prop := ∀ s ∈ e.places, P s

def Clause.Placed (c : Clause) : Prop := ∀ s ∈ c.places, P s

def Match.Placed (m : Match) : Prop := ∀ s ∈ m.places, P s

def Statement.Placed (s : Statement) : Prop := ∀ s' ∈ s.places, P s'

def Value.Placed (v : Value) : Prop := ∀ s ∈ v.places, P s

end Placed

section

variable {P : Span → Prop}

/-- What holds of all places in a list holds of those in each of its expressions. -/
theorem Expr.forall_mem_placesOfList {es : List Expr} :
    (∀ s ∈ Expr.placesOfList es, P s) ↔ ∀ e ∈ es, e.Placed P := by
  induction es with
  | nil => simp [Expr.placesOfList]
  | cons e es ih => simp only [Expr.placesOfList, List.forall_mem_append, ih,
      List.forall_mem_cons, Expr.Placed]

/-- The same for a list of clauses. -/
theorem Clause.forall_mem_placesOfList {cs : List Clause} :
    (∀ s ∈ Clause.placesOfList cs, P s) ↔ ∀ c ∈ cs, c.Placed P := by
  induction cs with
  | nil => simp [Clause.placesOfList]
  | cons c cs ih => simp only [Clause.placesOfList, List.forall_mem_append, ih,
      List.forall_mem_cons, Clause.Placed]

/-- The same for a list of values. -/
theorem Value.forall_mem_placesOfList {vs : List Value} :
    (∀ s ∈ Value.placesOfList vs, P s) ↔ ∀ v ∈ vs, v.Placed P := by
  induction vs with
  | nil => simp [Value.placesOfList]
  | cons v vs ih => simp only [Value.placesOfList, List.forall_mem_append, ih,
      List.forall_mem_cons, Value.Placed]

namespace Expr

/-- The span of an expression is one of its places. -/
theorem Placed.span {e : Expr} (h : e.Placed P) : P e.span := h _ e.span_mem_places

@[simp] theorem placed_number {value : Float} {raw : String} {s : Span} :
    (number value raw s).Placed P ↔ P s := List.forall_mem_singleton

@[simp] theorem placed_string {value raw : String} {s : Span} :
    (string value raw s).Placed P ↔ P s := List.forall_mem_singleton

@[simp] theorem placed_boolean {value : Bool} {raw : String} {s : Span} :
    (boolean value raw s).Placed P ↔ P s := List.forall_mem_singleton

@[simp] theorem placed_ident {name : String} {s : Span} :
    (ident name s).Placed P ↔ P s := List.forall_mem_singleton

@[simp] theorem placed_tuple {es : List Expr} {s : Span} :
    (tuple es s).Placed P ↔ P s ∧ ∀ e ∈ es, e.Placed P :=
  List.forall_mem_cons.trans (and_congr_right' forall_mem_placesOfList)

@[simp] theorem placed_binary {op : BinaryOp} {a b : Expr} {s : Span} :
    (binary op a b s).Placed P ↔ P s ∧ a.Placed P ∧ b.Placed P :=
  List.forall_mem_cons.trans (and_congr_right' List.forall_mem_append)

@[simp] theorem placed_unary {op : UnaryOp} {a : Expr} {s : Span} :
    (unary op a s).Placed P ↔ P s ∧ a.Placed P := List.forall_mem_cons

@[simp] theorem placed_call {f : Expr} {args : List Expr} {s : Span} :
    (call f args s).Placed P ↔ P s ∧ f.Placed P ∧ ∀ e ∈ args, e.Placed P :=
  List.forall_mem_cons.trans <| and_congr_right' <|
    List.forall_mem_append.trans (and_congr_right' forall_mem_placesOfList)

@[simp] theorem placed_matching {params : List Ident} {clauses : List Clause} {s : Span} :
    (matching params clauses s).Placed P ↔ P s ∧ ∀ c ∈ clauses, c.Placed P :=
  List.forall_mem_cons.trans (and_congr_right' Clause.forall_mem_placesOfList)

end Expr

@[simp] theorem Clause.placed_guarded {condition body : Expr} {s : Span} :
    (guarded condition body s).Placed P ↔ condition.Placed P ∧ body.Placed P :=
  List.forall_mem_append

@[simp] theorem Clause.placed_catchAll {body : Expr} {s : Span} :
    (catchAll body s).Placed P ↔ body.Placed P := Iff.rfl

/-- The places of a match are its own and those in its clauses. -/
theorem Match.placed_iff {m : Match} :
    m.Placed P ↔ P m.span ∧ ∀ c ∈ m.clauses, c.Placed P :=
  List.forall_mem_cons.trans (and_congr_right' Clause.forall_mem_placesOfList)

/-- The match that a body is wrapped in stands at the place of the body. -/
theorem Match.placed_always {params : List Ident} {body : Expr} (h : body.Placed P) :
    (Match.always params body).Placed P :=
  Match.placed_iff.mpr ⟨h.span, List.forall_mem_singleton.mpr h⟩

/-- No place is new in the match that an expression is taken as. -/
theorem Match.placed_ofExpr {e : Expr} (h : e.Placed P) : (Match.ofExpr e).Placed P := by
  cases e with
  | matching params clauses s => exact Match.placed_iff.mpr (Expr.placed_matching.mp h)
  | _ => exact Match.placed_always h

@[simp] theorem Value.placed_tuple {vs : List Value} :
    (tuple vs).Placed P ↔ ∀ v ∈ vs, v.Placed P := Value.forall_mem_placesOfList

@[simp] theorem Value.placed_function {f : FunctionValue} :
    (function f).Placed P ↔ f.body.Placed P := Iff.rfl

/-- What holds of all places in a program holds of those in each statement. -/
theorem Program.forall_mem_places {p : Program} :
    (∀ s ∈ p.places, P s) ↔ ∀ s ∈ p.statements, s.Placed P := by
  simp only [Program.places, List.forall_mem_flatMap, Statement.Placed]

end

end Clausal
