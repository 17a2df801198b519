import Clausal.Proofs.Tree.Pieces
import Clausal.Proofs.Tree.WellFormed

/-!
The printed text, token by token. For a well-formed tree the lexemes of the tree are what its
printed text is read as, because the pieces around each lexeme keep it apart: a tree starts with a
character that goes on with no operator, and whatever is printed after a tree goes on with no word
and no number.
-/

namespace Clausal

namespace Token.Shape

def enclosed (needed : Bool) (ls : List Shape) : List Shape :=
  if needed then (.leftParen, "(") :: (ls ++ [(.rightParen, ")")]) else ls

@[simp] theorem enclosed_true (ls : List Shape) :
    enclosed true ls = (.leftParen, "(") :: (ls ++ [(.rightParen, ")")]) := rfl

@[simp] theorem enclosed_false (ls : List Shape) : enclosed false ls = ls := rfl

def separated : List (List Shape) → List Shape
  | [] => []
  | [ls] => ls
  | ls :: more => ls ++ (.comma, ",") :: separated more

/-- Whether the name `_` comes first. -/
def leadsBlank (ls : List Shape) : Bool := ls.head? == some (.identifier, "_")

end Token.Shape

open Token Token.Shape

def Ident.lexemes (params : List Ident) : List Shape :=
  match params with
  | [p] => [(.identifier, p.name)]
  | _ => enclosed true (separated (params.map fun p => [(.identifier, p.name)]))

mutual

def Expr.lexemes : Expr → List Shape
  | .number _ raw _ => [(.number, raw)]
  | .string _ raw _ => [(.string, raw)]
  | .boolean _ raw _ => [(.boolean, raw)]
  | .ident name _ => [(.identifier, name)]
  | .tuple es _ => enclosed true (separated (Expr.lexemesOfList es))
  | .binary op a b _ =>
    enclosed (a.isBinary (op.precedence < ·)) a.lexemes ++
      (op.tokenKind, op.symbol) :: enclosed (b.isBinary (op.precedence ≤ ·)) b.lexemes
  | .unary op a _ => (op.tokenKind, op.symbol) :: enclosed (a.isBinary fun _ => true) a.lexemes
  | .call f args _ =>
    enclosed f.isOperation f.lexemes ++ enclosed true (separated (Expr.lexemesOfList args))
  | .matching params clauses _ =>
    (.keyword, "match") :: (Ident.lexemes params ++
      (.leftBrace, "\x7b") :: (Clause.lexemesOfList clauses ++ [(.rightBrace, "\x7d")]))

def Expr.lexemesOfList : List Expr → List (List Shape)
  | [] => []
  | e :: es => e.lexemes :: Expr.lexemesOfList es

def Clause.lexemes : Clause → List Shape
  | .guarded condition body _ =>
    (.keyword, "when") :: (condition.lexemes ++
      (.arrow, "->") :: (body.lexemes ++ [(.semicolon, ";")]))
  | .catchAll body _ =>
    (.keyword, "otherwise") :: (.arrow, "->") :: (body.lexemes ++ [(.semicolon, ";")])

def Clause.lexemesOfList : List Clause → List Shape
  | [] => []
  | c :: cs => c.lexemes ++ Clause.lexemesOfList cs

end

@[simp] theorem Expr.lexemesOfList_eq (es : List Expr) :
    Expr.lexemesOfList es = es.map (·.lexemes) := by
  induction es with
  | nil => rfl
  | cons e es ih => rw [Expr.lexemesOfList, ih, List.map_cons]

@[simp] theorem Clause.lexemesOfList_eq (cs : List Clause) :
    Clause.lexemesOfList cs = cs.flatMap (·.lexemes) := by
  induction cs with
  | nil => rfl
  | cons c cs ih => rw [Clause.lexemesOfList, ih, List.flatMap_cons]

/-- The types of a declaration with commas between them; the last one is that of the result. -/
def FunctionDecl.typeLexemes (d : FunctionDecl) : List Shape :=
  separated ((d.paramTypes ++ [d.returnType]).map fun t => [(Lexeme.wordKind t.toList, t)])

def Statement.lexemes : Statement → List Shape
  | .define typeName name init _ =>
    (.typeName, typeName) :: (.identifier, name) :: (.assign, "=") ::
      (init.lexemes ++ [(.semicolon, ";")])
  | .function d _ =>
    (.compareOp, "<") :: (d.typeLexemes ++ (.compareOp, ">") :: (.identifier, d.name) ::
      (.assign, "=") :: (d.body.toExpr.lexemes ++ [(.semicolon, ";")]))
  | .expression e _ => e.lexemes ++ [(.semicolon, ";")]
  | .comment text _ => [(.comment, text)]

def Program.lexemes (p : Program) : List Shape := p.statements.flatMap (·.lexemes)

namespace Piece

/-- Parentheses where they are needed add their two lexemes around those of the body. -/
theorem lexemes_enclosed {body : List Piece → List Piece} {ls : List Shape}
    (h : ∀ rest, lexemes (body rest) = ls ++ lexemes rest) (needed : Bool) (rest : List Piece) :
    lexemes (enclosed needed body rest) = Shape.enclosed needed ls ++ lexemes rest := by
  cases needed with
  | true => simp [enclosed, leftParen, rightParen, h]
  | false => exact h rest

/-- A list of names is printed with a comma between two of them. -/
theorem lexemes_names (ns : List String) (rest : List Piece) :
    lexemes (names ns rest) =
      separated (ns.map fun n => [(Kind.identifier, n)]) ++ lexemes rest := by
  induction ns with
  | nil => rfl
  | cons n ns ih =>
      cases ns with
      | nil => rfl
      | cons n' ns =>
          simp only [names, comma, identifier, lexemes_lexeme, lexemes_space, ih]
          rfl

end Piece

theorem Ident.lexemes_pieces (params : List Ident) (rest : List Piece) :
    Piece.lexemes (Ident.pieces params rest) = Ident.lexemes params ++ Piece.lexemes rest := by
  unfold Ident.pieces Ident.lexemes
  split
  · rfl
  · simp [Piece.leftParen, Piece.rightParen, Piece.lexemes_names, Function.comp_def]

/-- Expressions are printed with a comma between two of them. -/
theorem Expr.lexemes_piecesOfList {es : List Expr}
    (h : ∀ e ∈ es, ∀ rest, Piece.lexemes (e.pieces rest) = e.lexemes ++ Piece.lexemes rest)
    (rest : List Piece) :
    Piece.lexemes (Expr.piecesOfList es rest) =
      separated (es.map (·.lexemes)) ++ Piece.lexemes rest := by
  induction es with
  | nil => rfl
  | cons e es ih =>
      obtain ⟨he, hes⟩ := List.forall_mem_cons.mp h
      cases es with
      | nil => exact he rest
      | cons e' es =>
          have hmore := ih hes
          simp only [Expr.piecesOfList, he, Piece.comma, Piece.lexemes_lexeme,
            Piece.lexemes_space] at hmore ⊢
          simp [hmore, separated]

/-- Clauses are printed one after the other. -/
theorem Clause.lexemes_piecesOfList {cs : List Clause}
    (h : ∀ c ∈ cs, ∀ rest, Piece.lexemes (c.pieces rest) = c.lexemes ++ Piece.lexemes rest)
    (rest : List Piece) :
    Piece.lexemes (Clause.piecesOfList cs rest) =
      cs.flatMap (·.lexemes) ++ Piece.lexemes rest := by
  induction cs with
  | nil => rfl
  | cons c cs ih =>
      obtain ⟨hc, hcs⟩ := List.forall_mem_cons.mp h
      simp [Clause.piecesOfList, hc, ih hcs]

/-- Taken apart into lexemes, the printed pieces of a tree are the lexemes of the tree. -/
theorem lexemes_pieces :
    Hereditary (fun e => ∀ rest, Piece.lexemes (e.pieces rest) = e.lexemes ++ Piece.lexemes rest)
      (fun c => ∀ rest, Piece.lexemes (c.pieces rest) = c.lexemes ++ Piece.lexemes rest) where
  number value raw s rest := rfl
  string value raw s rest := rfl
  boolean value raw s rest := rfl
  ident name s rest := rfl
  tuple es s hes rest := by
    simp [Expr.pieces, Expr.lexemes, Piece.leftParen, Piece.rightParen,
      Expr.lexemes_piecesOfList hes]
  binary op a b s ha hb rest := by
    simp [Expr.pieces, Expr.lexemes, Piece.lexemes_enclosed ha, Piece.lexemes_enclosed hb]
  unary op a s ha rest := by
    simp [Expr.pieces, Expr.lexemes, Piece.lexemes_enclosed ha]
  call f args s hf hargs rest := by
    simp [Expr.pieces, Expr.lexemes, Piece.leftParen, Piece.rightParen,
      Piece.lexemes_enclosed hf, Expr.lexemes_piecesOfList hargs]
  matching params clauses s hcs rest := by
    simp [Expr.pieces, Expr.lexemes, Piece.keyword, Piece.leftBrace, Piece.rightBrace,
      Ident.lexemes_pieces, Clause.lexemes_piecesOfList hcs]
  guarded condition body s hcondition hbody rest := by
    simp [Clause.pieces, Clause.lexemes, Piece.keyword, Piece.arrow, Piece.semicolon, hcondition,
      hbody]
  catchAll body s hbody rest := by
    simp [Clause.pieces, Clause.lexemes, Piece.keyword, Piece.arrow, Piece.semicolon, hbody]

/-- The types of a declaration are printed between angle brackets, the type of the result last. -/
theorem FunctionDecl.lexemes_typePieces (d : FunctionDecl) (rest : List Piece) :
    Piece.lexemes (d.typePieces rest) =
      (.compareOp, "<") :: (d.typeLexemes ++ (.compareOp, ">") :: Piece.lexemes rest) := by
  have hmore (ts : List String) :
      Piece.lexemes (ts.foldr (fun t k => .typeWord t :: .comma :: .space :: k)
        (.typeWord d.returnType :: .lexeme .compareOp ">" :: rest)) =
      separated ((ts ++ [d.returnType]).map fun t => [(Lexeme.wordKind t.toList, t)]) ++
        (.compareOp, ">") :: Piece.lexemes rest := by
    induction ts with
    | nil => rfl
    | cons t ts ih =>
        obtain ⟨t', ts', hts⟩ : ∃ t' ts', ts ++ [d.returnType] = t' :: ts' :=
          List.exists_cons_of_ne_nil (by simp)
        rw [hts] at ih
        simp only [List.foldr_cons, Piece.typeWord, Piece.comma, Piece.lexemes_lexeme,
          Piece.lexemes_space] at ih ⊢
        rw [ih, List.cons_append, hts]
        rfl
  exact congrArg _ (hmore d.paramTypes)

theorem Statement.lexemes_pieces (s : Statement) (rest : List Piece) :
    Piece.lexemes (s.pieces rest) = s.lexemes ++ Piece.lexemes rest := by
  have hexpr := Clausal.lexemes_pieces.expr
  cases s with
  | define typeName name init =>
      simp [Statement.pieces, Statement.lexemes, Piece.identifier, Piece.assign, Piece.semicolon,
        hexpr]
  | function d =>
      simp [Statement.pieces, Statement.lexemes, d.lexemes_typePieces, Piece.identifier,
        Piece.assign, Piece.semicolon, hexpr]
  | expression e => simp [Statement.pieces, Statement.lexemes, Piece.semicolon, hexpr]
  | comment text => rfl

/-- The lexemes of what is printed for a program are those of its statements. -/
theorem Program.lexemes_pieces (p : Program) : Piece.lexemes p.pieces = p.lexemes := by
  have hmore (ss : List Statement) :
      Piece.lexemes (ss.foldr (fun s rest => s.pieces (.newline :: rest)) []) =
        ss.flatMap (·.lexemes) := by
    induction ss with
    | nil => rfl
    | cons s ss ih =>
        rw [List.foldr_cons, s.lexemes_pieces, Piece.lexemes_newline, ih, List.flatMap_cons]
  exact hmore p.statements

/-- What an expression writes, whatever may follow it. -/
def Piece.Writes (body : List Piece → List Piece) : Prop :=
  ∀ rest, Parted rest → Delimited rest → Parted (body rest) ∧ Opening (body rest)

namespace Piece

/-- A word or a number that is spelled as the lexer wants it can be written before anything that
delimits it. -/
theorem writes_plain {kind : Kind} {text : String} (h : Spelled kind text)
    (hkind : isPlain kind = true) : Writes (.lexeme kind text :: ·) := fun _ hparted hdelimited =>
  ⟨parted_plain h hkind hparted hdelimited, opening_plain h hkind⟩

/-- Parentheses around what can be written can be written. -/
theorem Writes.enclosed {body : List Piece → List Piece} (h : Writes body) (needed : Bool) :
    Writes (Piece.enclosed needed body) := by
  intro rest hparted hdelimited
  cases needed with
  | true =>
      have hbody := h (.rightParen :: rest) (by simpa using hparted) (by simp)
      exact ⟨by simpa [Piece.enclosed] using hbody.1, opening_leftParen⟩
  | false => exact h rest hparted hdelimited

theorem parted_names {ns : List String} {rest : List Piece}
    (h : ∀ n ∈ ns, Spelled .identifier n) (hparted : Parted rest) (hdelimited : Delimited rest) :
    Parted (names ns rest) := by
  induction ns with
  | nil => exact hparted
  | cons n ns ih =>
      obtain ⟨hn, hns⟩ := List.forall_mem_cons.mp h
      cases ns with
      | nil => exact parted_plain hn rfl hparted hdelimited
      | cons n' ns =>
          apply parted_plain hn rfl
          · simpa using ih hns
          · exact delimited_comma

end Piece

open Piece

/-- The parameters of a match are set apart from each other and from what follows. -/
theorem Ident.parted_pieces {params : List Ident} {rest : List Piece}
    (h : ∀ p ∈ params, Spelled .identifier p.name) (hparted : Parted rest)
    (hdelimited : Delimited rest) : Parted (Ident.pieces params rest) := by
  unfold Ident.pieces
  split
  · exact parted_plain (h _ (by simp)) rfl hparted hdelimited
  · rw [parted_leftParen]
    apply parted_names _ (parted_rightParen.mpr hparted) delimited_rightParen
    simpa using h

/-- Expressions with commas between them are set apart from each other and from what follows. -/
theorem Expr.parted_piecesOfList {es : List Expr} {rest : List Piece}
    (h : ∀ e ∈ es, Writes e.pieces) (hparted : Parted rest) (hdelimited : Delimited rest) :
    Parted (Expr.piecesOfList es rest) := by
  induction es with
  | nil => exact hparted
  | cons e es ih =>
      obtain ⟨he, hes⟩ := List.forall_mem_cons.mp h
      cases es with
      | nil => exact (he rest hparted hdelimited).1
      | cons e' es => exact (he _ (by simpa using ih hes) delimited_comma).1

/-- Each clause ends with its semicolon and a line end, which sets it apart from the next. -/
theorem Clause.parted_piecesOfList {cs : List Clause} {rest : List Piece}
    (h : ∀ c ∈ cs, ∀ rest, Parted rest → Parted (c.pieces rest)) (hparted : Parted rest) :
    Parted (Clause.piecesOfList cs rest) := by
  induction cs with
  | nil => exact hparted
  | cons c cs ih =>
      obtain ⟨hc, hcs⟩ := List.forall_mem_cons.mp h
      exact hc _ (ih hcs)

/-- The symbol of an operator is one that the lexer reads as an operator. -/
theorem BinaryOp.spelled (op : BinaryOp) : Spelled op.tokenKind op.symbol := by
  cases op <;> exact spelled_iff.mpr ⟨_, _, rfl, rfl, rfl⟩

theorem UnaryOp.spelled (op : UnaryOp) : Spelled op.tokenKind op.symbol := by
  cases op <;> exact spelled_iff.mpr ⟨_, _, rfl, rfl, rfl⟩

/-- An operator in front of an operand joins to nothing that an operand starts with. -/
theorem UnaryOp.writes (op : UnaryOp) {body : List Piece → List Piece} (h : Writes body) :
    Writes (fun rest => .lexeme op.tokenKind op.symbol :: body rest) := by
  intro rest hparted hdelimited
  obtain ⟨hbody, hopening⟩ := h rest hparted hdelimited
  constructor
  · apply parted_lexeme op.spelled _ hbody
    intro c hc
    have hc := hopening c hc
    cases op <;> simp_all [UnaryOp.tokenKind, Lexeme.isWordKind]
  · cases op <;>
    · intro c hc
      obtain rfl := Option.some.inj hc
      decide

/-- Every well-formed tree is printed in pieces that the lexer tells apart. -/
theorem writes_pieces :
    Hereditary (fun e => e.WellFormed → Writes e.pieces)
      (fun c => c.WellFormed → ∀ rest, Parted rest → Parted (c.pieces rest)) where
  number value raw s h := writes_plain h.1 rfl
  string value raw s h := writes_plain h.1 rfl
  boolean value raw s h := writes_plain h.1 rfl
  ident name s h := writes_plain h rfl
  tuple es s hes h := by
    intro rest hparted hdelimited
    simp only [Expr.WellFormed, Expr.allWellFormed_iff] at h
    refine ⟨?_, opening_leftParen⟩
    rw [Expr.pieces, parted_leftParen]
    exact Expr.parted_piecesOfList (fun e he => hes e he (h.2 e he))
      (parted_rightParen.mpr hparted) delimited_rightParen
  binary op a b s ha hb h := by
    intro rest hparted hdelimited
    have hright := ((hb h.2).enclosed (b.isBinary (op.precedence ≤ ·)) rest hparted hdelimited).1
    apply (ha h.1).enclosed _ _ _ delimited_space
    rw [parted_space]
    apply parted_spaced op.spelled _ hright
    cases op <;> decide
  unary op a s ha h := op.writes ((ha h).enclosed _)
  call f args s hf hargs h := by
    intro rest hparted hdelimited
    simp only [Expr.WellFormed, Expr.allWellFormed_iff] at h
    apply (hf h.1).enclosed _ _ _ delimited_leftParen
    rw [parted_leftParen]
    exact Expr.parted_piecesOfList (fun e he => hargs e he (h.2 e he))
      (parted_rightParen.mpr hparted) delimited_rightParen
  matching params clauses s hcs h := by
    intro rest hparted hdelimited
    simp only [Expr.WellFormed, Clause.allWellFormed_iff] at h
    have hkeyword : Spelled .keyword "match" := spelled_iff.mpr ⟨_, _, rfl, rfl, rfl⟩
    have hclauses : Parted (Clause.piecesOfList clauses (.space :: .rightBrace :: rest)) :=
      Clause.parted_piecesOfList (fun c hc => hcs c hc (h.2 c hc)) (by simpa using hparted)
    refine ⟨?_, opening_plain hkeyword rfl⟩
    apply parted_spaced hkeyword (by decide)
    apply Ident.parted_pieces h.1 _ delimited_space
    simpa using hclauses
  guarded condition body s hcondition hbody h := by
    intro rest hparted
    have hkeyword : Spelled .keyword "when" := spelled_iff.mpr ⟨_, _, rfl, rfl, rfl⟩
    have hresult := (hbody h.2 (.semicolon :: rest) (by simpa using hparted) (by simp)).1
    apply parted_spaced hkeyword (by decide)
    apply (hcondition h.1 _ _ delimited_space).1
    simpa using hresult
  catchAll body s hbody h := by
    intro rest hparted
    have hkeyword : Spelled .keyword "otherwise" := spelled_iff.mpr ⟨_, _, rfl, rfl, rfl⟩
    have hresult := (hbody h (.semicolon :: rest) (by simpa using hparted) (by simp)).1
    apply parted_spaced hkeyword (by decide)
    simpa using hresult

theorem Expr.WellFormed.writes {e : Expr} (h : e.WellFormed) : Writes e.pieces :=
  writes_pieces.expr e h

/-- A type is printed as the token that it is. -/
theorem spelled_typeWord {name : String} (h : Spelled .typeName name ∨ Spelled .identifier name) :
    Spelled (Lexeme.wordKind name.toList) name ∧
      (Lexeme.wordKind name.toList = .typeName ∨ Lexeme.wordKind name.toList = .identifier) := by
  rcases h with h | h
  · have hkind := (spelled_iff.mp h).wordKind_eq rfl
    exact ⟨by rwa [hkind], .inl hkind⟩
  · have hkind := (spelled_iff.mp h).wordKind_eq rfl
    exact ⟨by rwa [hkind], .inr hkind⟩

/-- The closing bracket of the types is set apart from the name by a space. -/
theorem FunctionDecl.WellFormed.parted_typePieces {d : FunctionDecl} (h : d.WellFormed)
    {rest : List Piece} (hparted : Parted rest) : Parted (d.typePieces (.space :: rest)) := by
  have hword {t : String} {ps : List Piece} (ht : t ∈ d.paramTypes ++ [d.returnType])
      (hps : Parted ps) (hdelimited : Delimited ps) :
      Parted (.typeWord t :: ps) ∧ Opening (.typeWord t :: ps) := by
    obtain ⟨hspelled, hkind⟩ := spelled_typeWord (h.types t ht)
    have hplain : isPlain (Lexeme.wordKind t.toList) = true := by
      rcases hkind with hkind | hkind <;> rw [hkind] <;> rfl
    exact ⟨parted_plain hspelled hplain hps hdelimited, opening_plain hspelled hplain⟩
  have hgreater : Spelled .compareOp ">" := spelled_iff.mpr ⟨_, _, rfl, rfl, rfl⟩
  have hlist (ts : List String) (hts : ∀ t ∈ ts, t ∈ d.paramTypes) :
      Parted (ts.foldr (fun t k => .typeWord t :: .comma :: .space :: k)
        (.typeWord d.returnType :: .lexeme .compareOp ">" :: .space :: rest)) ∧
      Opening (ts.foldr (fun t k => .typeWord t :: .comma :: .space :: k)
        (.typeWord d.returnType :: .lexeme .compareOp ">" :: .space :: rest)) := by
    induction ts with
    | nil =>
        have hend := parted_spaced hgreater (by decide) hparted
        exact hword (by simp) hend delimited_greater
    | cons t ts ih =>
        obtain ⟨ht, hmore⟩ := List.forall_mem_cons.mp hts
        exact hword (List.mem_append_left _ ht) (by simpa using (ih hmore).1) delimited_comma
  obtain ⟨htypes, hopening⟩ := hlist d.paramTypes fun _ => id
  have hless : Spelled .compareOp "<" := spelled_iff.mpr ⟨_, _, rfl, rfl, rfl⟩
  apply parted_lexeme hless _ htypes
  intro c hc
  exact ⟨by simp [Lexeme.isWordKind], by simp, by simp, fun _ => hopening c hc⟩

/-- A statement is set apart from the next one by a line end, which is what a comment needs. -/
theorem Statement.WellFormed.parted_pieces {s : Statement} (h : s.WellFormed)
    {rest : List Piece} (hparted : Parted rest) : Parted (s.pieces (.newline :: rest)) := by
  have hassign : Spelled .assign "=" := spelled_iff.mpr ⟨_, _, rfl, rfl, rfl⟩
  have hend : Parted (.semicolon :: .newline :: rest) := by simpa using hparted
  cases s with
  | define typeName name init s =>
      obtain ⟨htype, hname, hinit⟩ := h
      apply parted_spaced htype (by decide)
      apply parted_spaced hname (by decide)
      apply parted_spaced hassign (by decide)
      exact (hinit.writes _ hend delimited_semicolon).1
  | function d s =>
      apply FunctionDecl.WellFormed.parted_typePieces h
      apply parted_spaced h.name (by decide)
      apply parted_spaced hassign (by decide)
      exact (h.body.writes _ hend delimited_semicolon).1
  | expression e s => exact (Expr.WellFormed.writes h _ hend delimited_semicolon).1
  | comment text s => exact parted_comment h hparted

/-- A well-formed program is printed in pieces that the lexer tells apart. -/
theorem Program.WellFormed.parted_pieces {p : Program} (h : p.WellFormed) : Parted p.pieces := by
  have hmore {ss : List Statement} (hss : ∀ s ∈ ss, s.WellFormed) :
      Parted (ss.foldr (fun s rest => s.pieces (.newline :: rest)) []) := by
    induction ss with
    | nil => trivial
    | cons s ss ih =>
        obtain ⟨hs, hss⟩ := List.forall_mem_cons.mp hss
        exact hs.parted_pieces (ih hss)
  exact hmore h

/-- The lexer reads a printed expression back as its lexemes. -/
theorem Expr.WellFormed.items_print {e : Expr} (h : e.WellFormed) :
    ∃ ts : List Token,
      (TokenStream.ofSource e.print).items = ts.map .ok ∧ ts.map shape = e.lexemes := by
  have hparted : Parted (e.pieces []) := (h.writes [] parted_nil (by simp [Delimited])).1
  obtain ⟨ts, hitems, hshapes⟩ := hparted.items 0
  refine ⟨ts, ?_, hshapes.trans (by simp [lexemes_pieces.expr e])⟩
  rw [TokenStream.items, TokenStream.ofSource, Expr.print, toList_render]
  exact hitems

/-- That an expression opens with the blank name shows in the first of its lexemes. -/
theorem Expr.WellFormed.opensBlank_eq {e : Expr} (h : e.WellFormed) :
    e.opensBlank = leadsBlank e.lexemes := by
  obtain ⟨ts, hitems, hshapes⟩ := h.items_print
  rw [Expr.opensBlank, hitems, ← hshapes]
  cases ts <;> rfl

/-- The printed text of a well-formed program is read as the lexemes of the program. -/
theorem Program.WellFormed.items_print {p : Program} (h : p.WellFormed) :
    ∃ ts : List Token,
      (TokenStream.ofSource p.print).items = ts.map .ok ∧ ts.map shape = p.lexemes := by
  obtain ⟨ts, hitems, hshapes⟩ := h.parted_pieces.items 0
  refine ⟨ts, ?_, hshapes.trans p.lexemes_pieces⟩
  rw [TokenStream.items, TokenStream.ofSource, Program.print, toList_render]
  exact hitems

end Clausal
