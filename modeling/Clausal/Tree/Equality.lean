import Clausal.Tree

/-!
Equality of trees, spans included. Number literals compare as numbers, so a tree that holds a
literal without a value differs from itself; this is why the equality is a test of its own.
-/

namespace Clausal

mutual

def Expr.same : Expr → Expr → Bool
  | .number v r s, .number v' r' s' => v == v' && r == r' && s == s'
  | .string v r s, .string v' r' s' => v == v' && r == r' && s == s'
  | .boolean v r s, .boolean v' r' s' => v == v' && r == r' && s == s'
  | .tuple es s, .tuple es' s' => Expr.sameAll es es' && s == s'
  | .ident n s, .ident n' s' => n == n' && s == s'
  | .binary op a b s, .binary op' a' b' s' => op == op' && a.same a' && b.same b' && s == s'
  | .unary op a s, .unary op' a' s' => op == op' && a.same a' && s == s'
  | .call f es s, .call f' es' s' => f.same f' && Expr.sameAll es es' && s == s'
  | .matching ps cs s, .matching ps' cs' s' => ps == ps' && Clause.sameAll cs cs' && s == s'
  | _, _ => false

def Expr.sameAll : List Expr → List Expr → Bool
  | [], [] => true
  | e :: es, e' :: es' => e.same e' && Expr.sameAll es es'
  | _, _ => false

def Clause.same : Clause → Clause → Bool
  | .guarded c b s, .guarded c' b' s' => c.same c' && b.same b' && s == s'
  | .catchAll b s, .catchAll b' s' => b.same b' && s == s'
  | _, _ => false

def Clause.sameAll : List Clause → List Clause → Bool
  | [], [] => true
  | c :: cs, c' :: cs' => c.same c' && Clause.sameAll cs cs'
  | _, _ => false

end

def Match.same (a b : Match) : Bool :=
  a.params == b.params && Clause.sameAll a.clauses b.clauses && a.span == b.span

end Clausal
