import Clausal.Proofs.Tree.Reparsing

/-!
What is left of the guards of a program when it is printed and read back. A `when` opens a guarded
clause unless the name `_` follows it, so the guards of a program can be counted on its tokens. A
guard that is printed with that name in front is not among them: the clause is read as one that is
always taken, or not read at all.
-/

namespace Clausal

open Token Token.Shape

namespace Token.Shape

/-- How often the word `when` stands before something other than the name `_`. -/
def marks : List Shape → Nat
  | [] => 0
  | l :: ls => (if l = (.keyword, "when") ∧ leadsBlank ls = false then 1 else 0) + marks ls

@[simp] theorem marks_nil : marks [] = 0 := rfl

/-- Only the word `when` marks a guard. -/
theorem marks_cons_of_ne {l : Shape} (ls : List Shape) (h : l ≠ (.keyword, "when")) :
    marks (l :: ls) = marks ls := by
  rw [marks, if_neg fun hl => h hl.1, Nat.zero_add]

@[simp] theorem marks_cons_of_kind {kind : Kind} (text : String) (ls : List Shape)
    (h : kind ≠ .keyword) : marks ((kind, text) :: ls) = marks ls :=
  marks_cons_of_ne ls fun hl => h (congrArg Prod.fst hl)

/-- A `when` counts as the mark of a guard unless the blank name follows, which makes the clause one
that is always taken. -/
theorem marks_when (ls : List Shape) :
    marks ((.keyword, "when") :: ls) + (leadsBlank ls).toNat = 1 + marks ls := by
  rw [marks]
  cases hblank : leadsBlank ls with
  | true => simp [Nat.add_comm]
  | false => simp

end Token.Shape

namespace Phrase

def guards : (s : Phrase) → s.Meaning → List Expr
  | level _ | primary => Expr.guards
  | chain _ => fun m => m.flatMap (Expr.guards ·.2)
  | calls => fun m => m.flatMap (·.1.flatMap Expr.guards)
  | arguments => fun m => m.1.flatMap Expr.guards
  | expressions => fun m => m.flatMap Expr.guards
  | names | parameters | binders | types => fun _ => []
  | clause => Clause.guards
  | clauses => fun m => m.flatMap Clause.guards
  | body => fun m => m.toExpr.guards
  | statement => Statement.guards
  | program => fun m => m.flatMap Statement.guards

end Phrase

namespace Derivation

/-- The guards of a chain of operations are those of its operands, from left to right. -/
theorem guards_applyChain (left : Expr) (chain : List (BinaryOp × Expr)) :
    (applyChain left chain).guards = left.guards ++ chain.flatMap (·.2.guards) := by
  induction chain generalizing left with
  | nil => simp [applyChain]
  | cons x chain ih =>
      rw [applyChain, List.foldl_cons]
      exact (ih _).trans (by simp [Expr.joined, Expr.guards])

/-- The guards of calls are those of the callee and then those of the arguments. -/
theorem guards_applyCalls (callee : Expr) (calls : List (List Expr × Span)) :
    (applyCalls callee calls).guards = callee.guards ++ calls.flatMap (·.1.flatMap (·.guards)) := by
  induction calls generalizing callee with
  | nil => simp [applyCalls]
  | cons x calls ih =>
      rw [applyCalls, List.foldl_cons]
      exact (ih _).trans (by simp [Expr.guards])

end Derivation

/-- Wrapping a body in a match adds no guard. -/
theorem Match.guards_ofExpr (e : Expr) : (Match.ofExpr e).toExpr.guards = e.guards := by
  cases e <;> simp [Match.ofExpr, Match.always, Match.toExpr, Expr.guards, Clause.guards]

theorem Token.marks_shape {t : Token} (ls : List Shape) (h : t.kind ≠ .keyword) :
    marks (t.shape :: ls) = marks ls := marks_cons_of_kind t.text ls h

/-- A token that is a given word has the shape of the word. -/
theorem Token.shape_of_is {t : Token} {kind : Kind} {text : String} (h : t.is kind text = true) :
    t.shape = (kind, text) := by
  simp only [Token.is, Bool.and_eq_true, beq_iff_eq] at h
  rw [shape, h.1, h.2]

/-- A word other than `when` marks no guard. -/
theorem Token.marks_shape_of_is {t : Token} {kind : Kind} {text : String} (ls : List Shape)
    (h : t.is kind text = true) (hne : (kind, text) ≠ (.keyword, "when")) :
    marks (t.shape :: ls) = marks ls := by
  apply marks_cons_of_ne
  rwa [shape_of_is h]

/-- Whether a word leads with the blank name is told by its first token. -/
theorem Token.leadsBlank_map_shape_append {u : List Token} (hne : u ≠ []) (ls : List Shape) :
    Shape.leadsBlank (u.map shape ++ ls) = Token.leadsBlank u := by
  cases u with
  | nil => contradiction
  | cons t u => rfl

namespace Derivation

/-- There is no empty expression. -/
theorem ne_nil_of_expression {w : List Token} (d : Derivation .expression w) : w ≠ [] := by
  obtain ⟨t, u, rfl, -⟩ := d.opens rfl
  exact List.cons_ne_nil t u

/-- The guards of what a word stands for are counted on the word. -/
theorem marks_eq {s : Phrase} {w : List Token} (d : Derivation s w) (rest : List Shape) :
    marks (w.map shape ++ rest) = (s.guards d.meaning).length + marks rest := by
  induction d generalizing rest with
  | number t ht | string t ht | boolean t ht | ident t ht =>
      simp [marks_shape, ht, Phrase.guards, meaning, Expr.guards]
  | grouping opening closing ho hc inner ih =>
      simp [marks_shape, ho, hc, ih, Phrase.guards, meaning]
  | tuple opening comma closing ho hm hc first others ihf iho =>
      simp [marks_shape, ho, hm, hc, ihf, iho, Phrase.guards, meaning, Expr.guards, Nat.add_assoc]
  | matching keyword opening closing hk ho hc params clauses ihp ihc =>
      simp [marks_shape_of_is _ hk, marks_shape, ho, hc, ihp, ihc, Phrase.guards, meaning,
        Expr.guards]
  | called callee others ihc iho =>
      simp [ihc, iho, Phrase.guards, meaning, guards_applyCalls, Nat.add_assoc]
  | unary t op ht operand ih =>
      have hkind : t.kind ≠ .keyword := by rcases kind_of_unaryOp? ht with h | h <;> simp [h]
      simp [marks_shape, hkind, ih, Phrase.guards, meaning, Expr.guards]
  | operations first others ihf iho =>
      simp [ihf, iho, Phrase.guards, meaning, guards_applyChain, Nat.add_assoc]
  | operation t op ht level operand others ih iho =>
      have hkind : t.kind ≠ .keyword := by rcases kind_of_binaryOp? ht with h | h | h <;> simp [h]
      simp [marks_shape, hkind, ih, iho, Phrase.guards, meaning, Nat.add_assoc]
  | noOperation | noCall | noClause | noStatement => simp [Phrase.guards, meaning]
  | call args others iha iho => simp [iha, iho, Phrase.guards, meaning, Nat.add_assoc]
  | noArguments opening closing ho hc | noParameters opening closing ho hc =>
      simp [marks_shape, ho, hc, Phrase.guards, meaning]
  | someArguments opening closing ho hc args ih | someParameters opening closing ho hc args ih =>
      simp [marks_shape, ho, hc, ih, Phrase.guards, meaning]
  | lastExpression e ih => simp [ih, Phrase.guards, meaning]
  | nextExpression comma hm e others ih iho =>
      simp [marks_shape, hm, ih, iho, Phrase.guards, meaning, Nat.add_assoc]
  | lastName t ht | oneBinder t ht => simp [marks_shape, ht, Phrase.guards]
  | nextName t comma ht hm others ih => simp [marks_shape, ht, hm, ih, Phrase.guards]
  | enclosedBinders params ih => simp [ih, Phrase.guards]
  | @blank keyword name arrow stop hk hn ha hs w result ih =>
      have hwhen := marks_when
        ((.identifier, "_") :: arrow.shape :: (w.map shape ++ stop.shape :: rest))
      have hblank (ls : List Shape) : Shape.leadsBlank ((.identifier, "_") :: ls) = true := rfl
      simp only [hblank, Bool.toNat_true] at hwhen
      simp [shape_of_is hk, shape_of_is hn, marks_shape, ha, hs, ih, Phrase.guards, meaning,
        Clause.guards] at hwhen ⊢
      omega
  | otherwise keyword arrow stop hk ha hs result ih =>
      simp [marks_shape_of_is _ hk, marks_shape, ha, hs, ih, Phrase.guards, meaning, Clause.guards]
  | @guarded keyword arrow stop hk ha hs u v condition named result ihc ihr =>
      have hwhen := marks_when (u.map shape ++ arrow.shape :: (v.map shape ++ stop.shape :: rest))
      rw [leadsBlank_map_shape_append condition.ne_nil_of_expression, named] at hwhen
      simp [shape_of_is hk, marks_shape, ha, hs, ihc, ihr, Phrase.guards, meaning,
        Clause.guards] at hwhen ⊢
      omega
  | remark t ht others ih => simp [marks_shape, ht, ih, Phrase.guards, meaning]
  | nextClause first others ihf iho =>
      simp [ihf, iho, Phrase.guards, meaning, Nat.add_assoc]
  | lastType t ht =>
      have hkind : t.kind ≠ .keyword := by rcases ht with h | h <;> simp [h]
      simp [marks_shape, hkind, Phrase.guards]
  | nextType t comma ht hm others ih =>
      have hkind : t.kind ≠ .keyword := by rcases ht with h | h <;> simp [h]
      simp [marks_shape, hkind, hm, ih, Phrase.guards]
  | sugared assign ha params result ihp ihr =>
      simp [marks_shape, ha, ihp, ihr, Phrase.guards, meaning, Match.always, Match.toExpr,
        Expr.guards, Clause.guards]
  | plain assign ha result ih =>
      simp [marks_shape, ha, ih, Phrase.guards, meaning, Match.guards_ofExpr]
  | comment t ht => simp [marks_shape, ht, Phrase.guards, meaning, Statement.guards]
  | function opening closing name stop ho hc hn hs types body iht ihb =>
      simp [marks_shape_of_is _ ho, marks_shape_of_is _ hc, marks_shape, hn, hs, iht, ihb,
        Phrase.guards, meaning, Statement.guards]
  | define type name assign stop ht hn ha hs init ih =>
      simp [marks_shape, ht, hn, ha, hs, ih, Phrase.guards, meaning, Statement.guards]
  | expression stop hs e ih =>
      simp [marks_shape, hs, ih, Phrase.guards, meaning, Statement.guards]
  | nextStatement first others ihf iho =>
      simp [ihf, iho, Phrase.guards, meaning, Nat.add_assoc]

end Derivation

/-- The word `when` stands once in front of each of these guards, and the name `_` follows it
where the guard starts with that name. -/
def Counted (ls : List Shape) (gs : List Expr) : Prop :=
  ∀ rest, marks (ls ++ rest) + gs.countP (·.opensBlank) = gs.length + marks rest

namespace Counted

variable {ls ms : List Shape} {gs hs : List Expr}

theorem nil : Counted [] [] := fun rest => by simp

/-- Guards are counted from left to right, so the counts of two parts add up. -/
theorem append (hls : Counted ls gs) (hms : Counted ms hs) : Counted (ls ++ ms) (gs ++ hs) := by
  intro rest
  have hfirst := hls (ms ++ rest)
  have hsecond := hms rest
  rw [List.append_assoc, List.countP_append, List.length_append]
  omega

/-- A word that is not `when` may stand in front of what is counted. -/
theorem cons {l : Shape} (hl : l ≠ (.keyword, "when")) (hls : Counted ls gs) :
    Counted (l :: ls) gs := by
  intro rest
  rw [List.cons_append, marks_cons_of_ne _ hl]
  exact hls rest

theorem single {l : Shape} (hl : l ≠ (.keyword, "when")) : Counted [l] [] := nil.cons hl

/-- A `when` counts the guard behind it, if the guard does not open with the blank name. -/
theorem when (hls : Counted ls gs) {e : Expr}
    (he : ∀ rest, leadsBlank (ls ++ rest) = e.opensBlank) :
    Counted ((.keyword, "when") :: ls) (e :: gs) := by
  intro rest
  have hwhen := marks_when (ls ++ rest)
  have hmore := hls rest
  rw [he] at hwhen
  rw [List.cons_append, List.countP_cons, List.length_cons]
  cases hblank : e.opensBlank with
  | true =>
      simp [hblank] at hwhen ⊢
      omega
  | false =>
      simp [hblank] at hwhen ⊢
      omega

/-- Parentheses add no guard and hide none. -/
theorem enclosed (needed : Bool) (hls : Counted ls gs) : Counted (Shape.enclosed needed ls) gs := by
  cases needed with
  | true =>
      have hclosing : Counted [(.rightParen, ")")] [] := single (by decide)
      have hinner := hls.append hclosing
      rw [List.append_nil] at hinner
      exact hinner.cons (by decide)
  | false => exact hls

/-- The guards of a list are those of its elements, whatever commas stand between them. -/
theorem separated {es : List Expr} (h : ∀ e ∈ es, Counted e.lexemes e.guards) :
    Counted (Shape.separated (es.map (·.lexemes))) (es.flatMap (·.guards)) := by
  induction es with
  | nil => exact nil
  | cons e es ih =>
      obtain ⟨he, hes⟩ := List.forall_mem_cons.mp h
      cases es with
      | nil => simpa [Shape.separated] using he
      | cons e' es =>
          rw [List.flatMap_cons]
          exact he.append ((ih hes).cons (by decide))

/-- Names alone have no guards. -/
theorem names (ns : List String) :
    Counted (Shape.separated (ns.map fun n => [(.identifier, n)])) [] := by
  induction ns with
  | nil => exact nil
  | cons n ns ih =>
      cases ns with
      | nil => exact single (by simp)
      | cons n' ns => exact (ih.cons (by decide)).cons (by simp)

/-- The parameters of a match have no guards. -/
theorem binders (params : List Ident) : Counted (Ident.lexemes params) [] := by
  unfold Ident.lexemes
  split
  · exact single (by simp)
  · have hnames := names (params.map (·.name))
    rw [List.map_map] at hnames
    exact hnames.enclosed true

/-- The guards of clauses are those of each of them in turn. -/
theorem clauses {cs : List Clause} (h : ∀ c ∈ cs, Counted c.lexemes c.guards) :
    Counted (cs.flatMap (·.lexemes)) (cs.flatMap (·.guards)) := by
  induction cs with
  | nil => exact nil
  | cons c cs ih =>
      obtain ⟨hc, hcs⟩ := List.forall_mem_cons.mp h
      exact hc.append (ih hcs)

end Counted

/-- What a list of shapes leads with does not change when another word than the blank name
follows. -/
theorem Token.Shape.leadsBlank_append_cons (ls : List Shape) {l : Shape}
    (hl : l ≠ (.identifier, "_")) (ms : List Shape) :
    leadsBlank (ls ++ l :: ms) = leadsBlank ls := by
  cases ls with
  | nil => simp [leadsBlank, hl]
  | cons _ _ => rfl

/-- Printed, every well-formed tree shows as many marks as it has guards that do not open with the
blank name. -/
theorem counted_lexemes :
    Hereditary (fun e => e.WellFormed → Counted e.lexemes e.guards)
      (fun c => c.WellFormed → Counted c.lexemes c.guards) where
  number value raw s _ := .single (by simp)
  string value raw s _ := .single (by simp)
  boolean value raw s _ := .single (by simp)
  ident name s _ := .single (by simp)
  tuple es s hes h := by
    simp only [Expr.WellFormed, Expr.allWellFormed_iff] at h
    simp only [Expr.lexemes, Expr.guards, Expr.lexemesOfList_eq, Expr.guardsOfList_eq]
    exact (Counted.separated fun e he => hes e he (h.2 e he)).enclosed true
  binary op a b s ha hb h := by
    have hop : (op.tokenKind, op.symbol) ≠ (.keyword, "when") := by cases op <;> decide
    exact ((ha h.1).enclosed _).append (((hb h.2).enclosed _).cons hop)
  unary op a s ha h := by
    have hop : (op.tokenKind, op.symbol) ≠ (.keyword, "when") := by cases op <;> decide
    exact ((ha h).enclosed _).cons hop
  call f args s hf hargs h := by
    simp only [Expr.WellFormed, Expr.allWellFormed_iff] at h
    simp only [Expr.lexemes, Expr.guards, Expr.lexemesOfList_eq, Expr.guardsOfList_eq]
    have hall := Counted.separated fun e he => hargs e he (h.2 e he)
    exact ((hf h.1).enclosed _).append (hall.enclosed true)
  matching params clauses s hcs h := by
    simp only [Expr.WellFormed, Clause.allWellFormed_iff] at h
    simp only [Expr.lexemes, Expr.guards, Clause.lexemesOfList_eq, Clause.guardsOfList_eq]
    have hclauses := Counted.clauses fun c hc => hcs c hc (h.2 c hc)
    have hclosing : Counted [(.rightBrace, "\x7d")] [] := .single (by decide)
    have hinner := ((hclauses.append hclosing).cons (l := (.leftBrace, "\x7b")) (by decide))
    rw [List.append_nil] at hinner
    exact ((Counted.binders params).append hinner).cons (by decide)
  guarded condition body s hcondition hbody h := by
    have hclosing : Counted [(.semicolon, ";")] [] := .single (by decide)
    have hresult := ((hbody h.2).append hclosing).cons (l := (.arrow, "->")) (by decide)
    rw [List.append_nil] at hresult
    apply ((hcondition h.1).append hresult).when
    intro rest
    rw [List.append_assoc, List.cons_append, h.1.opensBlank_eq]
    exact leadsBlank_append_cons _ (by decide) _
  catchAll body s hbody h := by
    have hclosing : Counted [(.semicolon, ";")] [] := .single (by decide)
    have hresult := ((hbody h).append hclosing).cons (l := (.arrow, "->")) (by decide)
    rw [List.append_nil] at hresult
    exact hresult.cons (by decide)

/-- The types of a declaration show no marks. -/
theorem FunctionDecl.WellFormed.counted_types {d : FunctionDecl} (h : d.WellFormed) :
    Counted d.typeLexemes [] := by
  have hword {t : String} (ht : t ∈ d.paramTypes ++ [d.returnType]) :
      (Lexeme.wordKind t.toList, t) ≠ (.keyword, "when") := by
    rcases (spelled_typeWord (h.types t ht)).2 with hkind | hkind <;> simp [hkind]
  have hlist {ts : List String} (hts : ∀ t ∈ ts, t ∈ d.paramTypes ++ [d.returnType]) :
      Counted (separated (ts.map fun t => [(Lexeme.wordKind t.toList, t)])) [] := by
    induction ts with
    | nil => exact .nil
    | cons t ts ih =>
        obtain ⟨ht, hmore⟩ := List.forall_mem_cons.mp hts
        cases ts with
        | nil => exact .single (hword ht)
        | cons t' ts => exact ((ih hmore).cons (by decide)).cons (hword ht)
  exact hlist fun _ => id

theorem Statement.WellFormed.counted {s : Statement} (h : s.WellFormed) :
    Counted s.lexemes s.guards := by
  have hend {e : Expr} (he : e.WellFormed) :
      Counted (e.lexemes ++ [(.semicolon, ";")]) e.guards := by
    have hclosing : Counted [(.semicolon, ";")] [] := .single (by decide)
    simpa using (counted_lexemes.expr e he).append hclosing
  cases s with
  | define typeName name init s =>
      exact (((hend h.2.2).cons (by decide)).cons (by simp)).cons (by simp)
  | function d s =>
      have hbody := ((hend h.body).cons (l := (.assign, "=")) (by decide)).cons
        (l := (.identifier, d.name)) (by simp)
      have htypes := h.counted_types.append (hbody.cons (l := (.compareOp, ">")) (by decide))
      exact htypes.cons (by decide)
  | expression e s => exact hend h
  | comment text s => exact .single (by simp)

theorem Program.WellFormed.counted {p : Program} (h : p.WellFormed) :
    Counted p.lexemes p.guards := by
  obtain ⟨ss⟩ := p
  induction ss with
  | nil => exact .nil
  | cons s ss ih =>
      obtain ⟨hs, hss⟩ := List.forall_mem_cons.mp h
      exact hs.counted.append (ih hss)

/-- The guards of a tree with other spans are its guards with other spans. -/
theorem guards_mapSpans (f : Span → Span) :
    Hereditary (fun e => (e.mapSpans f).guards = e.guards.map (·.mapSpans f))
      (fun c => (c.mapSpans f).guards = c.guards.map (·.mapSpans f)) where
  number value raw s := rfl
  string value raw s := rfl
  boolean value raw s := rfl
  ident name s := rfl
  tuple es s hes := by
    simp only [Expr.mapSpans, Expr.guards, Expr.mapSpansOfList_eq, Expr.guardsOfList_eq,
      List.flatMap_map, List.map_flatMap]
    exact congrArg List.flatten (List.map_congr_left hes)
  binary op a b s ha hb := by simp [Expr.mapSpans, Expr.guards, ha, hb]
  unary op a s ha := ha
  call g args s hg hargs := by
    simp only [Expr.mapSpans, Expr.guards, Expr.mapSpansOfList_eq, Expr.guardsOfList_eq,
      List.flatMap_map, List.map_flatMap, List.map_append, hg]
    exact congrArg (_ ++ List.flatten ·) (List.map_congr_left hargs)
  matching params clauses s hcs := by
    simp only [Expr.mapSpans, Expr.guards, Clause.mapSpansOfList_eq, Clause.guardsOfList_eq,
      List.flatMap_map, List.map_flatMap]
    exact congrArg List.flatten (List.map_congr_left hcs)
  guarded condition body s hcondition hbody := by
    simp [Clause.mapSpans, Clause.guards, hcondition, hbody]
  catchAll body s hbody := hbody

/-- Without spans a statement has the same guards, without spans. -/
theorem Statement.guards_bare (s : Statement) : s.bare.guards = s.guards.map (·.bare) := by
  have hexpr := (guards_mapSpans Span.erased).expr
  cases s with
  | define typeName name init s => exact hexpr init
  | function d s =>
      have hbody := hexpr d.body.toExpr
      rw [← Match.toExpr_mapSpans] at hbody
      exact hbody
  | expression e s => exact hexpr e
  | comment text s => rfl

/-- Without spans a program has the same guards, without spans. -/
theorem Program.guards_bare (p : Program) : p.bare.guards = p.guards.map (·.bare) := by
  simp only [Program.guards, List.map_flatMap]
  rw [Program.bare, Program.mapSpans, List.flatMap_map]
  exact congrArg List.flatten (List.map_congr_left fun s _ => s.guards_bare)

end Clausal
