import Clausal.Proofs.Evaluation.Relabeling
import Clausal.Proofs.Grammar.Denoting
import Mathlib.Data.List.Forall2

/-!
Two ways to write a function. A function with parameters and an expression is the function that is
a match of these parameters with one clause that is always taken. Whatever the expression is, a
match or something that begins with one as well, the two declarations are the same statement up to
spans. So they have the same text, and whatever runs after the one runs as it does after the other.
-/

namespace Clausal

open Token Token.Shape

structure FunctionWords where
  types : List Shape
  name : String
  params : List String
  result : List Shape
  some : types ≠ []
  kinds : ∀ l ∈ types, l.1 = .typeName ∨ l.1 = .identifier

namespace FunctionWords

variable (f : FunctionWords)

def front : List Shape :=
  (.compareOp, "<") :: (separated (f.types.map ([·])) ++ [(.compareOp, ">"), (.identifier, f.name)])

def list : List Shape := enclosed true (separated (f.params.map fun p => [(.identifier, p)]))

def clause : List Shape :=
  (.keyword, "otherwise") :: (.arrow, "->") :: (f.result ++ [(.semicolon, ";")])

def matching : List Shape :=
  (.keyword, "match") ::
    (f.list ++ (.leftBrace, "\x7b") :: (f.clause ++ [(.rightBrace, "\x7d")]))

/-- The declaration with its parameters in front of the expression. -/
def sugared : List Shape :=
  f.front ++ (f.list ++ (.assign, "=") :: f.result) ++ [(.semicolon, ";")]

def matched : List Shape := f.front ++ ((.assign, "=") :: f.matching) ++ [(.semicolon, ";")]

def body (e : Expr) : Match := .always (f.params.map (⟨·, .point 0⟩)) e

def statement (e : Expr) : Statement :=
  .function ⟨f.name, (f.types.map (·.2)).dropLast, (f.types.getLast f.some).2, f.params, f.body e⟩
    (.point 0)

end FunctionWords

namespace Derives

theorem types {types : List Shape} (hsome : types ≠ [])
    (hkinds : ∀ l ∈ types, l.1 = .typeName ∨ l.1 = .identifier) :
    Derives .types (separated (types.map ([·]))) fun m : List String × String =>
      m = ((types.map (·.2)).dropLast, (types.getLast hsome).2) := by
  induction types with
  | nil => contradiction
  | cons l types ih =>
      obtain ⟨hl, htypes⟩ := List.forall_mem_cons.mp hkinds
      cases types with
      | nil =>
          intro ts hts
          obtain ⟨t, rfl, ht, htext⟩ := map_shape_eq_single hts
          exact ⟨.lastType t (ht ▸ hl), congrArg (([] : List String), ·) htext⟩
      | cons l' types =>
          intro ts hts
          obtain ⟨t, us, rfl, ht, htext, hus⟩ := map_shape_eq_cons hts
          obtain ⟨comma, w, rfl, hm, -, hw⟩ := map_shape_eq_cons hus
          obtain ⟨others, hothers⟩ := ih (List.cons_ne_nil l' types) htypes w hw
          refine ⟨.nextType t comma (ht ▸ hl) hm others, ?_⟩
          simp only [Derivation.meaning]
          rw [hothers, htext]
          rfl

theorem parameters (params : List String) :
    Derives .parameters (Shape.enclosed true (separated (params.map fun p => [(.identifier, p)])))
      fun ms : List Ident => ms.map (·.bare) = params.map (⟨·, .point 0⟩) := by
  intro ts hts
  obtain ⟨opening, w, closing, rfl, ho, hc, hw⟩ := map_shape_eq_enclosed hts
  cases params with
  | nil =>
      obtain rfl := List.map_eq_nil_iff.mp hw
      exact ⟨.noParameters opening closing ho hc, rfl⟩
  | cons p ps =>
      have hsome : (p :: ps).map (⟨·, .point 0⟩ : String → Ident) ≠ [] := List.cons_ne_nil _ _
      have hnames := names hsome
      rw [List.map_map] at hnames
      obtain ⟨d, hd⟩ := hnames w hw
      refine ⟨.someParameters opening closing ho hc d, hd.trans ?_⟩
      rw [List.map_map]
      rfl

end Derives

theorem Match.bare_always (params : List Ident) (body : Expr) :
    (Match.always params body).bare = .always (params.map (·.bare)) body.bare :=
  Match.moved_always (o := fun _ => 0) params body

namespace FunctionWords

variable (f : FunctionWords) {e : Expr}

theorem paramNames_body (e : Expr) : (f.body e).paramNames = f.params := by
  simp [body, Match.always, Match.paramNames, Function.comp_def]

theorem bare_body {params : List Ident} {result : Expr}
    (hparams : params.map (·.bare) = f.params.map (⟨·, .point 0⟩))
    (hresult : result.bare = e.bare) :
    (Match.always params result).bare = (f.body e).bare := by
  rw [body, Match.bare_always, Match.bare_always, hparams, hresult, List.map_map]
  rfl

theorem derives_sugared_body (h : Denotes f.result e) :
    Derives .body (f.list ++ (.assign, "=") :: f.result)
      fun m : Match => m.bare = (f.body e).bare := by
  intro ts hts
  obtain ⟨u, us, rfl, hu, hus⟩ := List.map_eq_append_iff.mp hts
  obtain ⟨assign, v, rfl, ha, -, hv⟩ := map_shape_eq_cons hus
  obtain ⟨params, hparams⟩ := Derives.parameters f.params u hu
  obtain ⟨result, hresult⟩ := h.derives v hv
  exact ⟨.sugared assign ha params result, f.bare_body hparams hresult⟩

/-- The clause of the other form, alone among the clauses of its match. -/
theorem derives_clauses (h : Denotes f.result e) :
    Derives .clauses f.clause
      fun cs : List Clause => cs.map (·.bare) = [.catchAll e.bare (.point 0)] := by
  intro ts hts
  obtain ⟨keyword, us, rfl, hkind, htext, hus⟩ := map_shape_eq_cons hts
  obtain ⟨arrow, vs, rfl, ha, -, hvs⟩ := map_shape_eq_cons hus
  obtain ⟨w, stop, rfl, hs, hw⟩ := map_shape_eq_append_single hvs
  obtain ⟨result, hresult⟩ := h.derives w hw
  have hkeyword : keyword.is .keyword "otherwise" = true := by simp [Token.is, hkind, htext]
  rw [← List.append_nil (keyword :: _)]
  refine ⟨.nextClause (.otherwise keyword arrow stop hkeyword ha hs result) .noClause, ?_⟩
  simp only [Derivation.meaning, List.map_cons, List.map_nil, Clause.bare_catchAll, hresult]

/-- The match of the other form. -/
theorem derives_matching (h : Denotes f.result e) :
    Derives .primary f.matching fun m : Expr => m.bare = (f.body e).toExpr.bare := by
  intro ts hts
  obtain ⟨keyword, us, rfl, hkind, htext, hus⟩ := map_shape_eq_cons hts
  obtain ⟨u, vs, rfl, hu, hvs⟩ := List.map_eq_append_iff.mp hus
  obtain ⟨opening, vs, rfl, ho, -, hvs⟩ := map_shape_eq_cons hvs
  obtain ⟨v, closing, rfl, hc, hv⟩ := map_shape_eq_append_single hvs
  obtain ⟨params, hparams⟩ := Derives.parameters f.params u hu
  obtain ⟨clauses, hclauses⟩ := f.derives_clauses h v hv
  have hkeyword : keyword.is .keyword "match" = true := by simp [Token.is, hkind, htext]
  refine ⟨.matching keyword opening closing hkeyword ho hc (.enclosedBinders params) clauses, ?_⟩
  simp only [Derivation.meaning, Expr.bare_matching]
  rw [hparams, hclauses]
  simp [body, Match.always, Match.toExpr, Ident.bare, Ident.mapSpan, Span.erased]

theorem derives_matched_body (h : Denotes f.result e) :
    Derives .body ((.assign, "=") :: f.matching) fun m : Match => m.bare = (f.body e).bare := by
  intro ts hts
  obtain ⟨assign, v, rfl, ha, -, hv⟩ := map_shape_eq_cons hts
  obtain ⟨result, hresult⟩ := (f.derives_matching h).called.lift (Nat.zero_le BinaryOp.loosest) v hv
  exact ⟨.plain assign ha result, Match.bare_ofExpr hresult⟩

/-- A declaration is its types, its name and its body. -/
theorem derives_statement {ls : List Shape}
    (hbody : Derives .body ls fun m : Match => m.bare = (f.body e).bare) :
    Derives .statement (f.front ++ ls ++ [(.semicolon, ";")])
      fun s : Statement => s.bare = (f.statement e).bare := by
  intro ts hts
  rw [front, List.cons_append, List.cons_append, List.append_assoc, List.append_assoc] at hts
  obtain ⟨opening, us, rfl, hokind, hotext, hus⟩ := map_shape_eq_cons hts
  obtain ⟨u, vs, rfl, hu, hvs⟩ := List.map_eq_append_iff.mp hus
  obtain ⟨closing, vs, rfl, hckind, hctext, hvs⟩ := map_shape_eq_cons hvs
  obtain ⟨name, vs, rfl, hn, hname, hvs⟩ := map_shape_eq_cons hvs
  obtain ⟨v, stop, rfl, hs, hv⟩ := map_shape_eq_append_single hvs
  obtain ⟨types, htypes⟩ := Derives.types f.some f.kinds u hu
  obtain ⟨body, hbody⟩ := hbody v hv
  have hparams : Match.paramNames body.meaning = f.params := by
    rw [← Match.paramNames_bare, hbody, Match.paramNames_bare, paramNames_body]
  refine ⟨.function opening closing name stop (by simp [Token.is, hokind, hotext])
    (by simp [Token.is, hckind, hctext]) hn hs types body, ?_⟩
  simp only [Derivation.meaning]
  rw [htypes, hparams, hname, statement, Statement.bare_function, Statement.bare_function, hbody]

/-- The statement that both forms are read as, spans aside. -/
theorem ofItems_eq_ok {ls : List Shape} {ts : List Token}
    (hbody : Derives .body ls fun m : Match => m.bare = (f.body e).bare)
    (hts : ts.map shape = f.front ++ ls ++ [(.semicolon, ";")]) (endOffset : Nat) :
    ∃ s : Statement, Program.ofItems (ts.map .ok) endOffset = .ok ⟨[s]⟩ ∧
      s.bare = (f.statement e).bare := by
  obtain ⟨d, hd⟩ := f.derives_statement hbody ts hts
  exact ⟨d.meaning, d.ofItems_statement rfl endOffset, hd⟩

end FunctionWords

section Texts

variable (f : Span → Span)

theorem Expr.level?_mapSpans (e : Expr) : (e.mapSpans f).level? = e.level? := by
  cases e <;> rfl

theorem Expr.isBinary_mapSpans (test : Nat → Bool) (e : Expr) :
    (e.mapSpans f).isBinary test = e.isBinary test := by
  rw [isBinary, isBinary, level?_mapSpans]

theorem Expr.isOperation_mapSpans (e : Expr) : (e.mapSpans f).isOperation = e.isOperation := by
  cases e <;> rfl

theorem Ident.pieces_mapSpan (params : List Ident) (rest : List Piece) :
    Ident.pieces (params.map (·.mapSpan f)) rest = Ident.pieces params rest := by
  match params with
  | [] | [_] => rfl
  | p :: q :: ps => simp [Ident.pieces, Ident.mapSpan, Function.comp_def]

theorem Expr.piecesOfList_map {es : List Expr}
    (h : ∀ e ∈ es, ∀ rest, (e.mapSpans f).pieces rest = e.pieces rest) (rest : List Piece) :
    Expr.piecesOfList (es.map (·.mapSpans f)) rest = Expr.piecesOfList es rest := by
  induction es with
  | nil => rfl
  | cons e es ih =>
      obtain ⟨he, hes⟩ := List.forall_mem_cons.mp h
      cases es with
      | nil => exact he rest
      | cons e' es =>
          have hlater := ih hes
          change (e.mapSpans f).pieces (.comma :: .space ::
            Expr.piecesOfList ((e' :: es).map (·.mapSpans f)) rest) = _
          rw [hlater, he]
          rfl

theorem Clause.piecesOfList_map {cs : List Clause}
    (h : ∀ c ∈ cs, ∀ rest, (c.mapSpans f).pieces rest = c.pieces rest) (rest : List Piece) :
    Clause.piecesOfList (cs.map (·.mapSpans f)) rest = Clause.piecesOfList cs rest := by
  induction cs with
  | nil => rfl
  | cons c cs ih =>
      obtain ⟨hc, hcs⟩ := List.forall_mem_cons.mp h
      rw [List.map_cons, Clause.piecesOfList, Clause.piecesOfList, ih hcs, hc]

/-- The text of a tree says nothing about its spans. -/
theorem hereditary_pieces : Hereditary
    (fun e => ∀ rest, (e.mapSpans f).pieces rest = e.pieces rest)
    (fun c => ∀ rest, (c.mapSpans f).pieces rest = c.pieces rest) where
  number _ _ _ _ := rfl
  string _ _ _ _ := rfl
  boolean _ _ _ _ := rfl
  ident _ _ _ := rfl
  tuple es s h rest := by
    simp only [Expr.mapSpans, Expr.pieces, Expr.mapSpansOfList_eq, Expr.piecesOfList_map f h]
  binary op a b s ha hb rest := by
    simp only [Expr.mapSpans, Expr.pieces, Expr.isBinary_mapSpans, ha, hb]
  unary op a s ha rest := by
    simp only [Expr.mapSpans, Expr.pieces, Expr.isBinary_mapSpans, ha]
  call g args s hg hargs rest := by
    simp only [Expr.mapSpans, Expr.pieces, Expr.mapSpansOfList_eq, Expr.isOperation_mapSpans, hg,
      Expr.piecesOfList_map f hargs]
  matching params cs s h rest := by
    simp only [Expr.mapSpans, Expr.pieces, Clause.mapSpansOfList_eq, Ident.pieces_mapSpan,
      Clause.piecesOfList_map f h]
  guarded condition body s hcondition hbody rest := by
    simp only [Clause.mapSpans, Clause.pieces, hcondition, hbody]
  catchAll body s hbody rest := by
    simp only [Clause.mapSpans, Clause.pieces, hbody]

theorem Statement.pieces_mapSpans (s : Statement) (rest : List Piece) :
    (s.mapSpans f).pieces rest = s.pieces rest := by
  have hpieces := (hereditary_pieces f).expr
  cases s with
  | define typeName name init s => simp only [mapSpans, pieces, hpieces]
  | function d s =>
      simp only [mapSpans, FunctionDecl.mapSpans, pieces, FunctionDecl.typePieces,
        Match.toExpr_mapSpans, hpieces]
  | expression e s => exact hpieces e _
  | comment text s => rfl

theorem Program.print_bare (p : Program) : p.bare.print = p.print := by
  obtain ⟨ss⟩ := p
  have hpieces : (Program.mk ss).bare.pieces = (Program.mk ss).pieces := by
    simp only [bare, mapSpans, pieces, List.foldr_map, Statement.pieces_mapSpans]
  rw [print, print, hpieces]

end Texts

/-- Both have values that are equal with spans ignored, or both fail with one cause. -/
def Outcome.Agrees : Outcome → Outcome → Prop
  | .ok v, .ok w => v.bare = w.bare
  | .error e, .error e' => e.cause = e'.cause
  | _, _ => False

theorem Outcome.agrees_of_erasing {o o' : Outcome}
    (h : Relabeling.erasing.outcome o = Relabeling.erasing.outcome o') : o.Agrees o' := by
  cases o with
  | ok v =>
      cases o' with
      | ok w => exact Except.ok.inj h
      | error e' => cases h
  | error e =>
      cases o' with
      | ok w => cases h
      | error e' =>
          have herror : Relabeling.erasing.error e = Relabeling.erasing.error e' :=
            Except.error.inj h
          have hcause : (Relabeling.erasing.error e).cause = (Relabeling.erasing.error e').cause :=
            congrArg (·.cause) herror
          exact hcause

namespace Interpreter

/-- What becomes of each of some statements that are run one after the other, whatever became of
those before. -/
def outcomes (i : Interpreter) : List Statement → List Outcome
  | [] => []
  | s :: ss => (i.runStatement s).1 :: (i.runStatement s).2.outcomes ss

theorem outcomes_bare (i : Interpreter) (ss : List Statement) :
    i.bare.outcomes (ss.map (·.bare)) = (i.outcomes ss).map Relabeling.erasing.outcome := by
  induction ss generalizing i with
  | nil => rfl
  | cons s ss ih =>
      have hrun := Relabeling.erasing.runStatement_statement i s
      rw [Relabeling.erasing_statement] at hrun
      rw [List.map_cons, outcomes, bare, hrun]
      exact congrArg (Relabeling.erasing.outcome (i.runStatement s).1 :: ·) (ih _)

/-- Statements that are equal with spans ignored have outcomes that agree, one by one. -/
theorem outcomes_agree (i : Interpreter) {ss ss' : List Statement}
    (h : ss.map (·.bare) = ss'.map (·.bare)) :
    List.Forall₂ Outcome.Agrees (i.outcomes ss) (i.outcomes ss') := by
  have hbare := (i.outcomes_bare ss).symm
  rw [h, i.outcomes_bare ss', ← List.forall₂_eq_eq_eq, List.forall₂_map_left_iff,
    List.forall₂_map_right_iff] at hbare
  exact hbare.imp fun _ _ heq => Outcome.agrees_of_erasing heq

/-- And so do their runs as programs, which end at the first failure. -/
theorem runProgram_agrees (i : Interpreter) {p q : Program} (h : p.bare = q.bare) :
    (i.runProgram p).1.Agrees (i.runProgram q).1 := by
  have hstatements : p.statements.map (·.bare) = q.statements.map (·.bare) :=
    congrArg Program.statements h
  have hanswer := i.runFrom_bare .null p.statements
  rw [hstatements, i.runFrom_bare .null q.statements] at hanswer
  exact Outcome.agrees_of_erasing (congrArg Prod.fst hanswer).symm

end Interpreter

/-- Both forms of a function declaration are read, as one statement up to spans. They are printed
alike, and neither they nor any statements that run after them tell which form it was. -/
theorem FunctionWords.forms_agree (f : FunctionWords) {e : Expr} (h : Denotes f.result e)
    {ts ts' : List Token} (hts : ts.map shape = f.sugared) (hts' : ts'.map shape = f.matched)
    (endOffset endOffset' : Nat) :
    ∃ a b : Statement, Program.ofItems (ts.map .ok) endOffset = .ok ⟨[a]⟩ ∧
      Program.ofItems (ts'.map .ok) endOffset' = .ok ⟨[b]⟩ ∧
      a.bare = (f.statement e).bare ∧ b.bare = (f.statement e).bare ∧
      Program.print ⟨[a]⟩ = Program.print ⟨[b]⟩ ∧
      ∀ (i : Interpreter) (later : List Statement),
        List.Forall₂ Outcome.Agrees (i.outcomes (a :: later)) (i.outcomes (b :: later)) ∧
        (i.runProgram ⟨a :: later⟩).1.Agrees (i.runProgram ⟨b :: later⟩).1 := by
  obtain ⟨a, ha, habare⟩ := f.ofItems_eq_ok (f.derives_sugared_body h) hts endOffset
  obtain ⟨b, hb, hbbare⟩ := f.ofItems_eq_ok (f.derives_matched_body h) hts' endOffset'
  have hsame : a.bare = b.bare := habare.trans hbbare.symm
  have hstatements (later : List Statement) :
      (a :: later).map (·.bare) = (b :: later).map (·.bare) := by
    rw [List.map_cons, List.map_cons, hsame]
  have hprograms (later : List Statement) :
      (Program.mk (a :: later)).bare = (Program.mk (b :: later)).bare :=
    congrArg Program.mk (hstatements later)
  refine ⟨a, b, ha, hb, habare, hbbare, ?_, fun i later => ⟨?_, ?_⟩⟩
  · rw [← Program.print_bare, hprograms [], Program.print_bare]
  · exact i.outcomes_agree (hstatements later)
  · exact i.runProgram_agrees (hprograms later)

/-- Two parameters of one name, and a call of a match. -/
private def calledMatch : FunctionWords where
  types := [(.typeName, "number"), (.identifier, "T")]
  name := "f"
  params := ["x", "x"]
  result := [(.keyword, "match"), (.identifier, "y"), (.leftBrace, "\x7b"), (.keyword, "when"),
    (.identifier, "_"), (.arrow, "->"), (.identifier, "y"), (.semicolon, ";"),
    (.rightBrace, "\x7d"), (.leftParen, "("), (.identifier, "x"), (.rightParen, ")")]
  some := by decide
  kinds := by decide

private def calledMatchResult : Expr :=
  .call (.matching [⟨"y", .point 0⟩] [.catchAll (.ident "y" (.point 0)) (.point 0)] (.point 0))
    [.ident "x" (.point 0)] (.point 0)

/-- Tokens of these shapes, each two bytes after the one before. -/
private def placedEvenly (ls : List Shape) : List Token :=
  ls.mapIdx fun n l => ⟨l.1, l.2, ⟨2 * n, 2 * n + 1⟩⟩

theorem FunctionWords.forms_agree_calledMatch :
    Denotes calledMatch.result calledMatchResult ∧
      (placedEvenly calledMatch.sugared).map shape = calledMatch.sugared ∧
      (placedEvenly calledMatch.matched).map shape = calledMatch.matched ∧
      ∃ a b : Statement,
        Program.ofItems ((placedEvenly calledMatch.sugared).map .ok) 50 = .ok ⟨[a]⟩ ∧
        Program.ofItems ((placedEvenly calledMatch.matched).map .ok) 62 = .ok ⟨[b]⟩ ∧
        a.bare = (calledMatch.statement calledMatchResult).bare ∧
        b.bare = (calledMatch.statement calledMatchResult).bare ∧
        Program.print ⟨[a]⟩ = Program.print ⟨[b]⟩ ∧
        ∀ (i : Interpreter) (later : List Statement),
          List.Forall₂ Outcome.Agrees (i.outcomes (a :: later)) (i.outcomes (b :: later)) ∧
          (i.runProgram ⟨a :: later⟩).1.Agrees (i.runProgram ⟨b :: later⟩).1 := by
  have hresult : Denotes calledMatch.result calledMatchResult := by
    refine ⟨calledMatch.result.map (fun l => ⟨l.1, l.2, .point 0⟩) ++ [⟨.semicolon, ";", .point 0⟩],
      0, calledMatchResult, .point 0, rfl, rfl, rfl⟩
  have hsugared : (placedEvenly calledMatch.sugared).map shape = calledMatch.sugared := by decide
  have hmatched : (placedEvenly calledMatch.matched).map shape = calledMatch.matched := by decide
  exact ⟨hresult, hsugared, hmatched,
    calledMatch.forms_agree hresult hsugared hmatched 50 62⟩

end Clausal
