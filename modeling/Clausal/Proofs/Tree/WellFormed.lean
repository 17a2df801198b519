import Clausal.Proofs.Token.Spelling
import Clausal.Proofs.Tree.Spans
import Clausal.Token.Literal
import Clausal.Tree.Printer

/-!
Trees that a source can stand for. The texts in a well-formed tree are tokens of the right kinds,
and the values of its literals are what the texts mean. Apart from this stands the one condition
on guards: a guard that is printed with the name `_` in front cannot be told from the word for a
clause that is always taken.
-/

namespace Clausal

open Token

mutual

def Expr.WellFormed : Expr → Prop
  | .number value raw _ => Spelled .number raw ∧ Literal.numberValue? raw = some value
  | .string value raw _ => Spelled .string raw ∧ Literal.stringValue raw = value
  | .boolean value raw _ => Spelled .boolean raw ∧ (raw == "true") = value
  | .tuple es _ => 2 ≤ es.length ∧ Expr.AllWellFormed es
  | .ident name _ => Spelled .identifier name
  | .binary _ a b _ => a.WellFormed ∧ b.WellFormed
  | .unary _ a _ => a.WellFormed
  | .call f args _ => f.WellFormed ∧ Expr.AllWellFormed args
  | .matching params clauses _ =>
    (∀ p ∈ params, Spelled .identifier p.name) ∧ Clause.AllWellFormed clauses

def Expr.AllWellFormed : List Expr → Prop
  | [] => True
  | e :: es => e.WellFormed ∧ Expr.AllWellFormed es

def Clause.WellFormed : Clause → Prop
  | .guarded condition body _ => condition.WellFormed ∧ body.WellFormed
  | .catchAll body _ => body.WellFormed

def Clause.AllWellFormed : List Clause → Prop
  | [] => True
  | c :: cs => c.WellFormed ∧ Clause.AllWellFormed cs

end

@[simp] theorem Expr.allWellFormed_iff (es : List Expr) :
    Expr.AllWellFormed es ↔ ∀ e ∈ es, e.WellFormed := by
  induction es with
  | nil => simp [Expr.AllWellFormed]
  | cons e es ih => simp [Expr.AllWellFormed, ih]

@[simp] theorem Clause.allWellFormed_iff (cs : List Clause) :
    Clause.AllWellFormed cs ↔ ∀ c ∈ cs, c.WellFormed := by
  induction cs with
  | nil => simp [Clause.AllWellFormed]
  | cons c cs ih => simp [Clause.AllWellFormed, ih]

structure FunctionDecl.WellFormed (d : FunctionDecl) : Prop where
  types : ∀ t ∈ d.paramTypes ++ [d.returnType], Spelled .typeName t ∨ Spelled .identifier t
  name : Spelled .identifier d.name
  params : d.params = d.body.paramNames
  body : d.body.toExpr.WellFormed

def Statement.WellFormed : Statement → Prop
  | .define typeName name init _ =>
    Spelled .typeName typeName ∧ Spelled .identifier name ∧ init.WellFormed
  | .function d _ => d.WellFormed
  | .expression e _ => e.WellFormed
  | .comment text _ => Spelled .comment text

def Program.WellFormed (p : Program) : Prop := ∀ s ∈ p.statements, s.WellFormed

mutual

/-- The conditions of all guarded clauses, at any depth. -/
def Expr.guards : Expr → List Expr
  | .number .. | .string .. | .boolean .. | .ident .. => []
  | .tuple es _ => Expr.guardsOfList es
  | .binary _ a b _ => a.guards ++ b.guards
  | .unary _ a _ => a.guards
  | .call f args _ => f.guards ++ Expr.guardsOfList args
  | .matching _ clauses _ => Clause.guardsOfList clauses

def Expr.guardsOfList : List Expr → List Expr
  | [] => []
  | e :: es => e.guards ++ Expr.guardsOfList es

def Clause.guards : Clause → List Expr
  | .guarded condition body _ => condition :: (condition.guards ++ body.guards)
  | .catchAll body _ => body.guards

def Clause.guardsOfList : List Clause → List Expr
  | [] => []
  | c :: cs => c.guards ++ Clause.guardsOfList cs

end

@[simp] theorem Expr.guardsOfList_eq (es : List Expr) :
    Expr.guardsOfList es = es.flatMap (·.guards) := by
  induction es with
  | nil => rfl
  | cons e es ih => rw [Expr.guardsOfList, ih, List.flatMap_cons]

@[simp] theorem Clause.guardsOfList_eq (cs : List Clause) :
    Clause.guardsOfList cs = cs.flatMap (·.guards) := by
  induction cs with
  | nil => rfl
  | cons c cs ih => rw [Clause.guardsOfList, ih, List.flatMap_cons]

def Statement.guards : Statement → List Expr
  | .define _ _ init _ => init.guards
  | .function d _ => d.body.toExpr.guards
  | .expression e _ => e.guards
  | .comment .. => []

def Program.guards (p : Program) : List Expr := p.statements.flatMap (·.guards)

/-- Whether the first token of the printed expression is the name `_`. -/
def Expr.opensBlank (e : Expr) : Bool :=
  match (TokenStream.ofSource e.print).items.head? with
  | some (.ok t) => t.is .identifier "_"
  | _ => false

/-- No guard is printed so that it starts with the name `_`. -/
def Program.GuardsClear (p : Program) : Prop := ∀ g ∈ p.guards, g.opensBlank = false

end Clausal
