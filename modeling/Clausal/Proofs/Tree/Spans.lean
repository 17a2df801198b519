import Clausal.Tree

/-!
Trees with their spans changed. Erasing the spans leaves what a program says and forgets where it
was read, so two programs are the same with spans ignored if they are equal once erased. The
induction over trees that all proofs about them use is packaged here as well.
-/

namespace Clausal

/-- What an induction over trees has to show: each node from the nodes in it. -/
structure Hereditary (P : Expr → Prop) (Q : Clause → Prop) : Prop where
  number : ∀ value raw s, P (.number value raw s)
  string : ∀ value raw s, P (.string value raw s)
  boolean : ∀ value raw s, P (.boolean value raw s)
  tuple : ∀ es s, (∀ e ∈ es, P e) → P (.tuple es s)
  ident : ∀ name s, P (.ident name s)
  binary : ∀ op a b s, P a → P b → P (.binary op a b s)
  unary : ∀ op a s, P a → P (.unary op a s)
  call : ∀ f args s, P f → (∀ e ∈ args, P e) → P (.call f args s)
  matching : ∀ params clauses s, (∀ c ∈ clauses, Q c) → P (.matching params clauses s)
  guarded : ∀ condition body s, P condition → P body → Q (.guarded condition body s)
  catchAll : ∀ body s, P body → Q (.catchAll body s)

namespace Hereditary

variable {P : Expr → Prop} {Q : Clause → Prop}

mutual

/-- What its parts hand on to a tree holds of every expression. -/
theorem expr (h : Hereditary P Q) : ∀ e, P e
  | .number .. => h.number ..
  | .string .. => h.string ..
  | .boolean .. => h.boolean ..
  | .tuple es _ => h.tuple _ _ (h.exprs es)
  | .ident .. => h.ident ..
  | .binary _ a b _ => h.binary _ _ _ _ (h.expr a) (h.expr b)
  | .unary _ a _ => h.unary _ _ _ (h.expr a)
  | .call f args _ => h.call _ _ _ (h.expr f) (h.exprs args)
  | .matching _ cs _ => h.matching _ _ _ (h.clauses cs)

/-- The same for each element of a list of expressions. -/
theorem exprs (h : Hereditary P Q) : ∀ es : List Expr, ∀ e ∈ es, P e
  | [] => fun _ he => nomatch he
  | e :: es => List.forall_mem_cons.mpr ⟨h.expr e, h.exprs es⟩

/-- The same for every clause. -/
theorem clause (h : Hereditary P Q) : ∀ c, Q c
  | .guarded condition body _ => h.guarded _ _ _ (h.expr condition) (h.expr body)
  | .catchAll body _ => h.catchAll _ _ (h.expr body)

/-- The same for each clause of a list. -/
theorem clauses (h : Hereditary P Q) : ∀ cs : List Clause, ∀ c ∈ cs, Q c
  | [] => fun _ hc => nomatch hc
  | c :: cs => List.forall_mem_cons.mpr ⟨h.clause c, h.clauses cs⟩

end

end Hereditary

def Ident.mapSpan (f : Span → Span) (i : Ident) : Ident := ⟨i.name, f i.span⟩

mutual

def Expr.mapSpans (f : Span → Span) : Expr → Expr
  | .number value raw s => .number value raw (f s)
  | .string value raw s => .string value raw (f s)
  | .boolean value raw s => .boolean value raw (f s)
  | .tuple es s => .tuple (Expr.mapSpansOfList f es) (f s)
  | .ident name s => .ident name (f s)
  | .binary op a b s => .binary op (a.mapSpans f) (b.mapSpans f) (f s)
  | .unary op a s => .unary op (a.mapSpans f) (f s)
  | .call callee args s => .call (callee.mapSpans f) (Expr.mapSpansOfList f args) (f s)
  | .matching params clauses s =>
    .matching (params.map (·.mapSpan f)) (Clause.mapSpansOfList f clauses) (f s)

def Expr.mapSpansOfList (f : Span → Span) : List Expr → List Expr
  | [] => []
  | e :: es => e.mapSpans f :: Expr.mapSpansOfList f es

def Clause.mapSpans (f : Span → Span) : Clause → Clause
  | .guarded condition body s => .guarded (condition.mapSpans f) (body.mapSpans f) (f s)
  | .catchAll body s => .catchAll (body.mapSpans f) (f s)

def Clause.mapSpansOfList (f : Span → Span) : List Clause → List Clause
  | [] => []
  | c :: cs => c.mapSpans f :: Clause.mapSpansOfList f cs

end

@[simp] theorem Expr.mapSpansOfList_eq (f : Span → Span) (es : List Expr) :
    Expr.mapSpansOfList f es = es.map (·.mapSpans f) := by
  induction es with
  | nil => rfl
  | cons e es ih => rw [Expr.mapSpansOfList, ih, List.map_cons]

@[simp] theorem Clause.mapSpansOfList_eq (f : Span → Span) (cs : List Clause) :
    Clause.mapSpansOfList f cs = cs.map (·.mapSpans f) := by
  induction cs with
  | nil => rfl
  | cons c cs ih => rw [Clause.mapSpansOfList, ih, List.map_cons]

@[simp] theorem Expr.span_mapSpans (f : Span → Span) (e : Expr) :
    (e.mapSpans f).span = f e.span := by
  cases e <;> rfl

def Match.mapSpans (f : Span → Span) (m : Match) : Match where
  params := m.params.map (·.mapSpan f)
  clauses := m.clauses.map (·.mapSpans f)
  span := f m.span

@[simp] theorem Match.paramNames_mapSpans (f : Span → Span) (m : Match) :
    (m.mapSpans f).paramNames = m.paramNames := by
  simp [Match.mapSpans, Match.paramNames, Ident.mapSpan, Function.comp_def]

/-- It does not matter whether spans are changed before or after a match is taken as an
expression. -/
theorem Match.toExpr_mapSpans (f : Span → Span) (m : Match) :
    (m.mapSpans f).toExpr = m.toExpr.mapSpans f := by
  simp [Match.mapSpans, Match.toExpr, Expr.mapSpans]

/-- A body is wrapped in a match at its own span, so it is wrapped the same with other spans. -/
theorem Match.ofExpr_mapSpans (f : Span → Span) (e : Expr) :
    Match.ofExpr (e.mapSpans f) = (Match.ofExpr e).mapSpans f := by
  cases e <;> simp [Match.ofExpr, Match.always, Match.mapSpans, Expr.mapSpans, Clause.mapSpans]
    <;> rfl

def FunctionDecl.mapSpans (f : Span → Span) (d : FunctionDecl) : FunctionDecl :=
  { d with body := d.body.mapSpans f }

def Statement.mapSpans (f : Span → Span) : Statement → Statement
  | .define typeName name init s => .define typeName name (init.mapSpans f) (f s)
  | .function d s => .function (d.mapSpans f) (f s)
  | .expression e s => .expression (e.mapSpans f) (f s)
  | .comment text s => .comment text (f s)

def Program.mapSpans (f : Span → Span) (p : Program) : Program :=
  ⟨p.statements.map (·.mapSpans f)⟩

/-- Takes the place of every span where spans are ignored. -/
def Span.erased (_ : Span) : Span := .point 0

def Ident.bare (i : Ident) : Ident := i.mapSpan Span.erased

def Expr.bare (e : Expr) : Expr := e.mapSpans Span.erased

def Clause.bare (c : Clause) : Clause := c.mapSpans Span.erased

def Match.bare (m : Match) : Match := m.mapSpans Span.erased

def Statement.bare (s : Statement) : Statement := s.mapSpans Span.erased

def Program.bare (p : Program) : Program := p.mapSpans Span.erased

/-- Of a parameter only the name is left. -/
theorem Ident.bare_eq_of_name {i j : Ident} (h : i.name = j.name) : i.bare = j.bare :=
  congrArg (Ident.mk · (.point 0)) h

namespace Expr

@[simp] theorem bare_number (value : Float) (raw : String) (s : Span) :
    (number value raw s).bare = number value raw (.point 0) := rfl

@[simp] theorem bare_string (value raw : String) (s : Span) :
    (string value raw s).bare = string value raw (.point 0) := rfl

@[simp] theorem bare_boolean (value : Bool) (raw : String) (s : Span) :
    (boolean value raw s).bare = boolean value raw (.point 0) := rfl

@[simp] theorem bare_ident (name : String) (s : Span) :
    (ident name s).bare = ident name (.point 0) := rfl

@[simp] theorem bare_tuple (es : List Expr) (s : Span) :
    (tuple es s).bare = tuple (es.map (·.bare)) (.point 0) :=
  congrArg (tuple · (.point 0)) (mapSpansOfList_eq Span.erased es)

@[simp] theorem bare_binary (op : BinaryOp) (a b : Expr) (s : Span) :
    (binary op a b s).bare = binary op a.bare b.bare (.point 0) := rfl

@[simp] theorem bare_unary (op : UnaryOp) (a : Expr) (s : Span) :
    (unary op a s).bare = unary op a.bare (.point 0) := rfl

@[simp] theorem bare_call (f : Expr) (args : List Expr) (s : Span) :
    (call f args s).bare = call f.bare (args.map (·.bare)) (.point 0) :=
  congrArg (call f.bare · (.point 0)) (mapSpansOfList_eq Span.erased args)

@[simp] theorem bare_matching (params : List Ident) (clauses : List Clause) (s : Span) :
    (matching params clauses s).bare =
      matching (params.map (·.bare)) (clauses.map (·.bare)) (.point 0) :=
  congrArg (matching (params.map Ident.bare) · (.point 0)) (Clause.mapSpansOfList_eq _ clauses)

end Expr

@[simp] theorem Clause.bare_guarded (condition body : Expr) (s : Span) :
    (guarded condition body s).bare = guarded condition.bare body.bare (.point 0) := rfl

@[simp] theorem Clause.bare_catchAll (body : Expr) (s : Span) :
    (catchAll body s).bare = catchAll body.bare (.point 0) := rfl

theorem Statement.bare_function (name : String) (paramTypes : List String) (returnType : String)
    (params : List String) (body : Match) (s : Span) :
    (function ⟨name, paramTypes, returnType, params, body⟩ s).bare =
      function ⟨name, paramTypes, returnType, params, body.bare⟩ (.point 0) := rfl

theorem Match.paramNames_bare (m : Match) : m.bare.paramNames = m.paramNames :=
  m.paramNames_mapSpans Span.erased

/-- An expression that is a match up to spans is taken as that match, up to spans. -/
theorem Match.bare_ofExpr {m : Match} {e : Expr} (h : e.bare = m.toExpr.bare) :
    (Match.ofExpr e).bare = m.bare := by
  rw [Expr.bare, Expr.bare, ← Match.toExpr_mapSpans] at h
  rw [Match.bare, ← Match.ofExpr_mapSpans, h]
  rfl

end Clausal
