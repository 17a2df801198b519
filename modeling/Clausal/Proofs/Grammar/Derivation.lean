import Clausal.Grammar.Program

/-!
The grammar of programs, written down apart from the readers. A phrase is a part of a program
that the grammar names. A derivation shows how a word of tokens makes up a phrase, and it has a
meaning, which is the tree that the word stands for: parentheses around one expression vanish,
and the operations of one level are grouped to the left. Repetition is a phrase of its own for
what is left of it, so a derivation is a list wherever the grammar repeats.
-/

namespace Clausal

inductive Phrase
  /-- An expression whose binary operators outside parentheses are of at most this level. -/
  | level (n : Nat)
  /-- Operators of the level above this one, each with its right operand. -/
  | chain (n : Nat)
  | primary
  /-- Argument lists, one after the other. -/
  | calls
  | arguments
  /-- One or more expressions with a comma between them. -/
  | expressions
  /-- One or more names with a comma between them. -/
  | names
  | parameters
  /-- What stands between `match` and its brace. -/
  | binders
  | clause
  | clauses
  /-- The types of a declaration; the last one is that of the result. -/
  | types
  /-- A function declaration from its parameters on. -/
  | body
  | statement
  | program

namespace Phrase

abbrev expression : Phrase := .level BinaryOp.loosest

/-- What a phrase stands for. An argument list keeps the place of its closing parenthesis, where
the span of the call ends. -/
abbrev Meaning : Phrase → Type
  | level _ | primary => Expr
  | chain _ => List (BinaryOp × Expr)
  | calls => List (List Expr × Span)
  | arguments => List Expr × Span
  | expressions => List Expr
  | names | parameters | binders => List Ident
  | clause => Clause
  | clauses => List Clause
  | types => List String × String
  | body => Match
  | statement => Statement
  | program => List Statement

end Phrase

/-- Whether a word starts with the name that makes a clause one that is always taken. -/
def Token.leadsBlank (w : List Token) : Bool := w.head?.any (·.is .identifier "_")

@[simp] theorem Token.leadsBlank_cons (t : Token) (w : List Token) :
    leadsBlank (t :: w) = t.is .identifier "_" := rfl

inductive Derivation : Phrase → List Token → Type
  | number (t : Token) (ht : t.kind = .number)
      (finite : (Literal.numberValue t.text).isFinite = true) : Derivation .primary [t]
  | string (t : Token) (ht : t.kind = .string) : Derivation .primary [t]
  | boolean (t : Token) (ht : t.kind = .boolean) : Derivation .primary [t]
  | ident (t : Token) (ht : t.kind = .identifier) : Derivation .primary [t]
  | grouping (opening closing : Token) (ho : opening.kind = .leftParen)
      (hc : closing.kind = .rightParen) {w : List Token} (inner : Derivation .expression w) :
      Derivation .primary (opening :: (w ++ [closing]))
  | tuple (opening comma closing : Token) (ho : opening.kind = .leftParen)
      (hm : comma.kind = .comma) (hc : closing.kind = .rightParen) {u v : List Token}
      (first : Derivation .expression u) (others : Derivation .expressions v) :
      Derivation .primary (opening :: (u ++ comma :: (v ++ [closing])))
  | matching (keyword opening closing : Token) (hk : keyword.is .keyword "match" = true)
      (ho : opening.kind = .leftBrace) (hc : closing.kind = .rightBrace) {u v : List Token}
      (params : Derivation .binders u) (cases : Derivation .clauses v) :
      Derivation .primary (keyword :: (u ++ opening :: (v ++ [closing])))
  | called {u v : List Token} (callee : Derivation .primary u) (others : Derivation .calls v) :
      Derivation (.level 0) (u ++ v)
  | unary (t : Token) (op : UnaryOp) (ht : t.unaryOp? = some op) {w : List Token}
      (operand : Derivation (.level 0) w) : Derivation (.level 0) (t :: w)
  | operations {n : Nat} {u v : List Token} (first : Derivation (.level n) u)
      (others : Derivation (.chain n) v) : Derivation (.level (n + 1)) (u ++ v)
  | noOperation {n : Nat} : Derivation (.chain n) []
  | operation {n : Nat} (t : Token) (op : BinaryOp) (ht : t.binaryOp? = some op)
      (level : op.precedence = n + 1) {u v : List Token} (operand : Derivation (.level n) u)
      (others : Derivation (.chain n) v) : Derivation (.chain n) (t :: (u ++ v))
  | noCall : Derivation .calls []
  | call {u v : List Token} (args : Derivation .arguments u) (others : Derivation .calls v) :
      Derivation .calls (u ++ v)
  | noArguments (opening closing : Token) (ho : opening.kind = .leftParen)
      (hc : closing.kind = .rightParen) : Derivation .arguments [opening, closing]
  | someArguments (opening closing : Token) (ho : opening.kind = .leftParen)
      (hc : closing.kind = .rightParen) {w : List Token} (args : Derivation .expressions w) :
      Derivation .arguments (opening :: (w ++ [closing]))
  | lastExpression {w : List Token} (e : Derivation .expression w) : Derivation .expressions w
  | nextExpression (comma : Token) (hm : comma.kind = .comma) {u v : List Token}
      (e : Derivation .expression u) (others : Derivation .expressions v) :
      Derivation .expressions (u ++ comma :: v)
  | lastName (t : Token) (ht : t.kind = .identifier) : Derivation .names [t]
  | nextName (t comma : Token) (ht : t.kind = .identifier) (hm : comma.kind = .comma)
      {w : List Token} (others : Derivation .names w) : Derivation .names (t :: comma :: w)
  | noParameters (opening closing : Token) (ho : opening.kind = .leftParen)
      (hc : closing.kind = .rightParen) : Derivation .parameters [opening, closing]
  | someParameters (opening closing : Token) (ho : opening.kind = .leftParen)
      (hc : closing.kind = .rightParen) {w : List Token} (names : Derivation .names w) :
      Derivation .parameters (opening :: (w ++ [closing]))
  | enclosedBinders {w : List Token} (params : Derivation .parameters w) : Derivation .binders w
  | oneBinder (t : Token) (ht : t.kind = .identifier) : Derivation .binders [t]
  | blank (keyword name arrow stop : Token) (hk : keyword.is .keyword "when" = true)
      (hn : name.is .identifier "_" = true) (ha : arrow.kind = .arrow)
      (hs : stop.kind = .semicolon) {w : List Token} (result : Derivation .expression w) :
      Derivation .clause (keyword :: name :: arrow :: (w ++ [stop]))
  | otherwise (keyword arrow stop : Token) (hk : keyword.is .keyword "otherwise" = true)
      (ha : arrow.kind = .arrow) (hs : stop.kind = .semicolon) {w : List Token}
      (result : Derivation .expression w) :
      Derivation .clause (keyword :: arrow :: (w ++ [stop]))
  | guarded (keyword arrow stop : Token) (hk : keyword.is .keyword "when" = true)
      (ha : arrow.kind = .arrow) (hs : stop.kind = .semicolon) {u v : List Token}
      (condition : Derivation .expression u) (named : Token.leadsBlank u = false)
      (result : Derivation .expression v) :
      Derivation .clause (keyword :: (u ++ arrow :: (v ++ [stop])))
  | noClause : Derivation .clauses []
  | remark (t : Token) (ht : t.kind = .comment) {w : List Token}
      (others : Derivation .clauses w) : Derivation .clauses (t :: w)
  | nextClause {u v : List Token} (first : Derivation .clause u)
      (others : Derivation .clauses v) : Derivation .clauses (u ++ v)
  | lastType (t : Token) (ht : t.kind = .typeName ∨ t.kind = .identifier) :
      Derivation .types [t]
  | nextType (t comma : Token) (ht : t.kind = .typeName ∨ t.kind = .identifier)
      (hm : comma.kind = .comma) {w : List Token} (others : Derivation .types w) :
      Derivation .types (t :: comma :: w)
  | sugared (assign : Token) (ha : assign.kind = .assign) {u v : List Token}
      (params : Derivation .parameters u) (result : Derivation .expression v) :
      Derivation .body (u ++ assign :: v)
  | plain (assign : Token) (ha : assign.kind = .assign) {w : List Token}
      (result : Derivation .expression w) : Derivation .body (assign :: w)
  | comment (t : Token) (ht : t.kind = .comment) : Derivation .statement [t]
  | function (opening closing name stop : Token) (ho : opening.is .compareOp "<" = true)
      (hc : closing.is .compareOp ">" = true) (hn : name.kind = .identifier)
      (hs : stop.kind = .semicolon) {u v : List Token} (types : Derivation .types u)
      (body : Derivation .body v) :
      Derivation .statement (opening :: (u ++ closing :: name :: (v ++ [stop])))
  | define (type name assign stop : Token) (ht : type.kind = .typeName)
      (hn : name.kind = .identifier) (ha : assign.kind = .assign) (hs : stop.kind = .semicolon)
      {w : List Token} (init : Derivation .expression w) :
      Derivation .statement (type :: name :: assign :: (w ++ [stop]))
  | expression (stop : Token) (hs : stop.kind = .semicolon) {w : List Token}
      (e : Derivation .expression w) : Derivation .statement (w ++ [stop])
  | noStatement : Derivation .program []
  | nextStatement {u v : List Token} (first : Derivation .statement u)
      (others : Derivation .program v) : Derivation .program (u ++ v)

namespace Derivation

/-- The operations of a chain, applied to the operand on its left. -/
def applyChain (left : Expr) (chain : List (BinaryOp × Expr)) : Expr :=
  chain.foldl (fun l x => .joined x.1 l x.2) left

/-- The calls of an expression, the first of them innermost. -/
def applyCalls (callee : Expr) (calls : List (List Expr × Span)) : Expr :=
  calls.foldl (fun f x => .call f x.1 (f.span.merge x.2)) callee

/-- The tree that a word stands for. -/
def meaning : {s : Phrase} → {w : List Token} → Derivation s w → s.Meaning
  | _, _, number t _ _ => Expr.number (Literal.numberValue t.text) t.text t.span
  | _, _, string t _ => Expr.string (Literal.stringValue t.text) t.text t.span
  | _, _, boolean t _ => Expr.boolean (t.text == "true") t.text t.span
  | _, _, ident t _ => Expr.ident t.text t.span
  | _, _, grouping _ _ _ _ inner => inner.meaning
  | _, _, tuple opening _ closing _ _ _ first others =>
    Expr.tuple (first.meaning :: others.meaning) (opening.span.merge closing.span)
  | _, _, matching keyword _ closing _ _ _ params cases =>
    Expr.matching params.meaning cases.meaning (keyword.span.merge closing.span)
  | _, _, called callee others => applyCalls callee.meaning others.meaning
  | _, _, unary t op _ operand =>
    Expr.unary op operand.meaning (t.span.merge (Expr.span operand.meaning))
  | _, _, operations first others => applyChain first.meaning others.meaning
  | _, _, noOperation => []
  | _, _, operation _ op _ _ operand others => (op, operand.meaning) :: others.meaning
  | _, _, noCall => []
  | _, _, call args others => args.meaning :: others.meaning
  | _, _, noArguments _ closing _ _ => ([], closing.span)
  | _, _, someArguments _ closing _ _ args => (args.meaning, closing.span)
  | _, _, lastExpression e => [e.meaning]
  | _, _, nextExpression _ _ e others => e.meaning :: others.meaning
  | _, _, lastName t _ => [⟨t.text, t.span⟩]
  | _, _, nextName t _ _ _ others => ⟨t.text, t.span⟩ :: others.meaning
  | _, _, noParameters _ _ _ _ => []
  | _, _, someParameters _ _ _ _ names => names.meaning
  | _, _, enclosedBinders params => params.meaning
  | _, _, oneBinder t _ => [⟨t.text, t.span⟩]
  | _, _, blank keyword _ _ stop _ _ _ _ result =>
    Clause.catchAll result.meaning (keyword.span.merge stop.span)
  | _, _, otherwise keyword _ stop _ _ _ result =>
    Clause.catchAll result.meaning (keyword.span.merge stop.span)
  | _, _, guarded keyword _ stop _ _ _ condition _ result =>
    Clause.guarded condition.meaning result.meaning (keyword.span.merge stop.span)
  | _, _, noClause => []
  | _, _, remark _ _ others => others.meaning
  | _, _, nextClause first others => first.meaning :: others.meaning
  | _, _, lastType t _ => ([], t.text)
  | _, _, nextType t _ _ _ others => (t.text :: others.meaning.1, others.meaning.2)
  | _, _, sugared _ _ params result => Match.always params.meaning result.meaning
  | _, _, plain _ _ result => Match.ofExpr result.meaning
  | _, _, comment t _ => Statement.comment t.text t.span
  | _, _, function opening _ name stop _ _ _ _ types body =>
    Statement.function ⟨name.text, types.meaning.1, types.meaning.2,
      Match.paramNames body.meaning, body.meaning⟩ (opening.span.merge stop.span)
  | _, _, define type name _ stop _ _ _ _ init =>
    Statement.define type.text name.text init.meaning (type.span.merge stop.span)
  | _, _, expression stop _ e =>
    Statement.expression e.meaning ((Expr.span e.meaning).merge stop.span)
  | _, _, noStatement => []
  | _, _, nextStatement first others => first.meaning :: others.meaning

variable {w : List Token}

/-- A phrase of one level of precedence is a phrase of each level above it, with one meaning. -/
theorem exists_level {m n : Nat} (d : Derivation (.level m) w) (hle : m ≤ n) :
    ∃ d' : Derivation (.level n) w, d'.meaning = d.meaning := by
  induction hle with
  | refl => exact ⟨d, rfl⟩
  | @step n _ ih =>
      obtain ⟨d', hd'⟩ := ih
      have hnext : ∃ d'' : Derivation (.level (n + 1)) (w ++ []), d''.meaning = d.meaning :=
        ⟨.operations d' .noOperation, hd'⟩
      rwa [List.append_nil] at hnext

theorem exists_called (d : Derivation .primary w) :
    ∃ d' : Derivation (.level 0) w, d'.meaning = d.meaning := by
  have hcalled : ∃ d' : Derivation (.level 0) (w ++ []), d'.meaning = d.meaning :=
    ⟨.called d .noCall, rfl⟩
  rwa [List.append_nil] at hcalled

/-- A primary can stand as an expression by itself. -/
theorem exists_expression (d : Derivation .primary w) :
    ∃ d' : Derivation .expression w, d'.meaning = d.meaning := by
  obtain ⟨d', hd'⟩ := d.exists_called
  obtain ⟨d'', hd''⟩ := d'.exists_level (Nat.zero_le BinaryOp.loosest)
  exact ⟨d'', hd''.trans hd'⟩

end Derivation

end Clausal
