import Clausal.Proofs.Grammar.Denoting

/-!
What can be a condition. After `when` any expression is read as the condition of a clause, except
one whose first token is the name `_`. That name alone makes the clause one that is always taken,
and where an expression starts with it and goes on, an arrow is missed at its second token. The
same expression in parentheses is a condition like any other.
-/

namespace Clausal

open Token Clausal.Parser

namespace Parser

variable {α β : Type} {p : Parser α} {f : α → Parser β} {u v w : List Token} {a : α} {t : Token}
  {e : ParseError}

def Refuses (p : Parser α) (w : List Token) (e : ParseError) : Prop :=
  ∀ previous endOffset, p (.on previous endOffset w) = .error e

namespace Refuses

theorem bind (h : Refuses p w e) : Refuses (p >>= f) w e := by
  intro previous endOffset
  rw [bind_apply, h]
  rfl

/-- What is read first has no effect on the failure of what is read next. -/
theorem after (hp : Reads p u v a) (hf : Refuses (f a) v e) : Refuses (p >>= f) (u ++ v) e := by
  intro previous endOffset
  rw [bind_apply, hp]
  exact hf _ _

theorem cons (hp : Reads p [t] v a) (hf : Refuses (f a) v e) : Refuses (p >>= f) (t :: v) e :=
  after hp hf

theorem look {g : Cursor → α} (hg : ∀ previous endOffset, g (.on previous endOffset w) = a)
    (hf : Refuses (f a) w e) : Refuses (look g >>= f) w e := by
  intro previous endOffset
  rw [bind_apply, Parser.look, hg]
  exact hf _ _

theorem check {kind : Token.Kind} {f : Bool → Parser β} (hf : Refuses (f (headKind w kind)) w e) :
    Refuses (check kind >>= f) w e :=
  look (fun _ _ => Cursor.check_on ..) hf

theorem checkText {kind : Token.Kind} {text : String} {f : Bool → Parser β}
    (hf : Refuses (f (headIs w kind text)) w e) : Refuses (checkText kind text >>= f) w e :=
  look (fun _ _ => Cursor.checkText_on ..) hf

theorem within (context : ParseError.Context) (h : Refuses p w e) :
    Refuses (within context p) w (e.within context) := by
  intro previous endOffset
  simp only [Parser.within, h previous endOffset]
  rfl

end Refuses

/-- The error that one kind of token is missed where another stands. -/
def missed (kind : Token.Kind) (t : Token) : ParseError :=
  ⟨.expectedToken kind none t.kind t.text, t.span, none⟩

theorem refuses_expect {kind : Token.Kind} (ht : t.kind ≠ kind) (w : List Token) :
    Refuses (expect kind) (t :: w) (missed kind t) := by
  intro previous endOffset
  simp [expect, Cursor.expect, Cursor.mismatch, Reply.ofStep, ht, missed]

section Misled

variable {keyword name : Token}

/-- The tokens open a clause as one that is always taken, and its arrow is missing. -/
structure Misled (keyword name t : Token) : Prop where
  keyword : keyword.is .keyword "when" = true
  name : name.is .identifier "_" = true
  arrow : t.kind ≠ .arrow

def Misled.error (t : Token) : ParseError := (missed .arrow t).within .matchClause

theorem headKind_of_clause {kind : Token.Kind} (d : Derivation .clause u) (rest : List Token)
    (hkind : kind ≠ .keyword) : headKind (u ++ rest) kind = false := by
  obtain ⟨c, u', rfl, hc⟩ := d.opens rfl
  have hkeyword : c.kind = .keyword := hc.elim kind_of_is kind_of_is
  rw [List.cons_append, headKind_cons, hkeyword]
  exact beq_eq_false_iff_ne.mpr hkind.symm

theorem refuses_clause (h : Misled keyword name t) (expr : Parser Expr) (w : List Token) :
    Refuses (clause expr) (keyword :: name :: t :: w) (missed .arrow t) := by
  refine Refuses.look (a := keyword.span) (fun _ _ => rfl) (.checkText ?_)
  rw [headIs_cons, h.keyword, if_pos rfl]
  refine .cons (reads_consume keyword _) (.checkText ?_)
  rw [headIs_cons, h.name, if_pos rfl]
  exact .cons (reads_consume name _) (refuses_expect h.arrow w).bind

/-- The clauses before are read as what they are, one after the other, and do not help. -/
theorem refuses_clauses (h : Misled keyword name t) (w : List Token) {rounds inner : Nat} :
    {before : List Token} → Derivation .clauses before →
    (before ++ keyword :: name :: t :: w).length < inner →
    (before ++ keyword :: name :: t :: w).length < rounds →
    Refuses (clauses (Parser.expression inner) rounds) (before ++ keyword :: name :: t :: w)
      (Misled.error t)
  | _, .noClause, _, hrounds => by
      obtain ⟨rounds, rfl⟩ : ∃ n, rounds = n + 1 := ⟨rounds - 1, by omega⟩
      have hkind : keyword.kind = .keyword := kind_of_is h.keyword
      refine .check ?_
      rw [List.nil_append, headKind_cons, hkind, if_neg (by decide)]
      refine .after (u := []) (reads_eat_nothing (by simp [hkind])) ?_
      exact ((refuses_clause h _ w).within .matchClause).bind
  | _, .remark r hr others, hinner, hrounds => by
      obtain ⟨rounds, rfl⟩ : ∃ n, rounds = n + 1 := ⟨rounds - 1, by omega⟩
      refine .check ?_
      rw [List.cons_append, headKind_cons, hr, if_neg (by decide)]
      refine .cons (reads_eat hr _) (refuses_clauses h w others ?_ ?_)
      · simp at hinner ⊢; omega
      · simp at hrounds ⊢; omega
  | _, .nextClause (u := u) (v := v) first others, hinner, hrounds => by
      obtain ⟨rounds, rfl⟩ : ∃ n, rounds = n + 1 := ⟨rounds - 1, by omega⟩
      have hread : Reads (within .matchClause (clause (Parser.expression inner))) u
          (v ++ keyword :: name :: t :: w) first.meaning :=
        (first.readable inner _ (by simp at hinner ⊢; omega)).within
      have hpos : 0 < u.length := by
        obtain ⟨c, u', rfl, -⟩ := first.opens rfl
        simp
      rw [List.append_assoc]
      refine .check ?_
      rw [headKind_of_clause first _ (by decide), if_neg Bool.false_ne_true]
      refine .after (u := []) (reads_eat_nothing (headKind_of_clause first _ (by decide))) ?_
      refine .after hread (refuses_clauses h w others ?_ ?_).bind
      · simp at hinner ⊢; omega
      · simp at hrounds ⊢; omega

end Misled

section Match

variable {keyword : Token}

/-- A failure of what starts with the word `match` is a failure of any expression that does. -/
theorem refuses_binary (hk : keyword.is .keyword "match" = true) {expr : Parser Expr}
    {rounds : Nat} (h : Refuses (matchExpression expr rounds) (keyword :: w) e) (n : Nat) :
    Refuses (binary expr (rounds + 1) n) (keyword :: w) e := by
  have hprimary : keyword.StartsPrimary := .inr hk
  induction n with
  | zero =>
      refine Refuses.look (a := none) (fun _ _ => hprimary.unaryOp?_eq_none) ?_
      refine Refuses.bind (Refuses.look (a := some keyword) (fun _ _ => rfl) ?_)
      simpa only [hk, if_true] using h
  | succ n ih => exact ih.bind

theorem refuses_statement (hk : keyword.is .keyword "match" = true) {rounds : Nat}
    (h : Refuses (matchExpression (Parser.expression (rounds + 1)) rounds) (keyword :: w) e) :
    Refuses (statement (rounds + 2)) (keyword :: w) (e.within .expressionStatement) := by
  have hkind : keyword.kind = .keyword := kind_of_is hk
  refine .check ?_
  rw [headKind_cons, hkind, if_neg (by decide)]
  refine .checkText ?_
  rw [headIs_cons, not_is_of_kind _ (by simp [hkind]), if_neg Bool.false_ne_true]
  refine .check ?_
  rw [headKind_cons, hkind, if_neg (by decide)]
  exact (refuses_binary hk h BinaryOp.loosest).bind.within .expressionStatement

end Match

end Parser

/-- The words of a match that is a statement, with a place among its clauses. -/
structure MatchFrame where
  keyword : Token
  opening : Token
  closing : Token
  stop : Token
  hk : keyword.is .keyword "match" = true
  ho : opening.kind = .leftBrace
  hc : closing.kind = .rightBrace
  hs : stop.kind = .semicolon
  binders : List Token
  before : List Token
  after : List Token
  params : Derivation .binders binders
  earlier : Derivation .clauses before
  later : Derivation .clauses after

def MatchFrame.word (f : MatchFrame) (clause : List Token) : List Token :=
  f.keyword :: (f.binders ++ f.opening :: (f.before ++ (clause ++ f.after) ++ [f.closing])) ++
    [f.stop]

/-- The tokens of a clause that has a condition, around its expressions. -/
structure GuardFrame where
  keyword : Token
  arrow : Token
  stop : Token
  hk : keyword.is .keyword "when" = true
  ha : arrow.kind = .arrow
  hs : stop.kind = .semicolon

def GuardFrame.word (g : GuardFrame) (condition body : List Token) : List Token :=
  g.keyword :: (condition ++ g.arrow :: (body ++ [g.stop]))

namespace Derivation

/-- A primary is an expression of any level. -/
theorem level_of_primary {w : List Token} {e : Expr} (d : Derivation .primary w)
    (h : d.meaning = e) (n : Nat) : ∃ d' : Derivation (.level n) w, d'.meaning = e := by
  induction n with
  | zero =>
      rw [← List.append_nil w]
      exact ⟨.called d .noCall, h⟩
  | succ n ih =>
      obtain ⟨d', hd'⟩ := ih
      rw [← List.append_nil w]
      exact ⟨.operations d' .noOperation, hd'⟩

/-- Clauses go on with other clauses. -/
theorem clauses_append {v : List Token} (later : Derivation .clauses v) :
    {u : List Token} → (earlier : Derivation .clauses u) → {w : List Token} → w = u ++ v →
      ∃ d : Derivation .clauses w, d.meaning = earlier.meaning ++ later.meaning
  | _, .noClause, w, hw => by
      obtain rfl : w = v := hw
      exact ⟨later, rfl⟩
  | _, .remark t ht others, w, hw => by
      obtain ⟨d, hd⟩ := clauses_append later others rfl
      obtain rfl := hw
      exact ⟨.remark t ht d, hd⟩
  | _, .nextClause first others, w, hw => by
      obtain ⟨d, hd⟩ := clauses_append later others rfl
      obtain rfl := hw.trans (List.append_assoc _ _ v)
      exact ⟨.nextClause first d, congrArg (first.meaning :: ·) hd⟩

/-- No expression is a name with an arrow after it. -/
theorem kind_ne_arrow {name t : Token} {w : List Token}
    (d : Derivation .expression (name :: t :: w)) (hname : name.kind = .identifier) :
    t.kind ≠ .arrow := by
  intro ht
  obtain ⟨alone, -⟩ := (Derivation.ident name hname).level_of_primary rfl BinaryOp.loosest
  have hstops : Stops BinaryOp.loosest (t :: w) := stops_of_kind _ _ (by simp [ht])
  obtain ⟨-, hrest⟩ := alone.determined (name :: t :: w) d (t :: w) []
    (by simp) hstops (stops_nil _)
  cases hrest

end Derivation

namespace MatchFrame

variable (f : MatchFrame)

/-- A clause is accepted where it stands among the others. -/
theorem ofItems_word {w : List Token} (clause : Derivation .clause w) (endOffset : Nat) :
    ∃ s s', Program.ofItems ((f.word w).map .ok) endOffset =
      .ok ⟨[.expression (.matching f.params.meaning
        (f.earlier.meaning ++ clause.meaning :: f.later.meaning) s) s']⟩ := by
  obtain ⟨clauses, hclauses⟩ :=
    Derivation.clauses_append (.nextClause clause f.later) f.earlier rfl
  obtain ⟨e, he⟩ := (Derivation.matching f.keyword f.opening f.closing f.hk f.ho f.hc f.params
    clauses).level_of_primary rfl BinaryOp.loosest
  have hstatement : (Derivation.expression f.stop f.hs e).meaning =
      .expression (.matching f.params.meaning clauses.meaning
        (f.keyword.span.merge f.closing.span)) _ := congrArg (Statement.expression · _) he
  rw [hclauses] at hstatement
  exact ⟨_, _, Derivation.ofItems_statement _ hstatement endOffset⟩

/-- The match fails where a clause in it does that misses its arrow. -/
theorem ofItems_misled {keyword name t : Token} (h : Misled keyword name t) (w : List Token)
    (endOffset : Nat) :
    Program.ofItems ((f.word (keyword :: name :: t :: w)).map .ok) endOffset =
      .error (Misled.error t) := by
  obtain ⟨rest, hrest⟩ : ∃ rest, f.word (keyword :: name :: t :: w) =
      f.keyword :: (f.binders ++ f.opening :: (f.before ++ keyword :: name :: t :: rest)) :=
    ⟨w ++ f.after ++ [f.closing] ++ [f.stop], by simp [word]⟩
  rw [hrest]
  obtain ⟨size, hsize⟩ : ∃ size, size =
      (f.binders ++ f.opening :: (f.before ++ keyword :: name :: t :: rest)).length := ⟨_, rfl⟩
  have hmatch : Refuses (matchExpression (Parser.expression (size + 2)) (size + 1))
      (f.keyword :: (f.binders ++ f.opening :: (f.before ++ keyword :: name :: t :: rest)))
      (Misled.error t) := by
    refine Refuses.within (e := Misled.error t) .matchExpression
      (.cons (reads_expect (kind_of_is f.hk) _) ?_)
    refine .after (f.params.readable (size + 1) _ (by omega)) ?_
    refine .cons (reads_expect f.ho _) (refuses_clauses h rest f.earlier ?_ ?_).bind
    · simp at hsize ⊢; omega
    · simp at hsize ⊢; omega
  have hstatement := refuses_statement f.hk hmatch
  have hread : Refuses (statements (size + 3) (size + 3)) _ _ :=
    .look (a := false) (fun _ _ => rfl) hstatement.bind
  simp only [Program.ofItems, Cursor.ofItems_map_ok, List.length_map, List.length_cons, ← hsize,
    hread (.point 0) endOffset]
  rfl

end MatchFrame

/-- After `when` an expression that is more than the name `_` is the condition of the clause, unless
it starts with that name. Then the name is taken for all of it, and the token after it is no arrow,
which is what the failure names. -/
theorem Program.ofItems_condition {u v : List Token} {e b : Expr}
    (hu : Shape.Denotes (u.map shape) e) (hv : Shape.Denotes (v.map shape) b)
    (hname : u.map shape ≠ [(.identifier, "_")]) (f : MatchFrame) (g : GuardFrame)
    (endOffset : Nat) :
    (leadsBlank u = false → ∃ c s s', ofItems ((f.word (g.word u v)).map .ok) endOffset =
        .ok ⟨[.expression (.matching f.params.meaning
          (f.earlier.meaning ++ c :: f.later.meaning) s) s']⟩ ∧
      c.bare = .guarded e.bare b.bare (.point 0)) ∧
    (leadsBlank u = true → ∃ t, u[1]? = some t ∧
      ofItems ((f.word (g.word u v)).map .ok) endOffset =
        .error ⟨.expectedToken .arrow none t.kind t.text, t.span, some .matchClause⟩) := by
  obtain ⟨condition, hcondition⟩ := hu.derives u rfl
  obtain ⟨body, hbody⟩ := hv.derives v rfl
  refine ⟨fun hblank => ?_, fun hblank => ?_⟩
  · let clause := Derivation.guarded g.keyword g.arrow g.stop g.hk g.ha g.hs condition hblank body
    obtain ⟨s, s', hread⟩ := f.ofItems_word clause endOffset
    refine ⟨clause.meaning, s, s', hread, ?_⟩
    simp only [clause, Derivation.meaning, Clause.bare_guarded]
    rw [hcondition, hbody]
  · cases u with
    | nil => cases hblank
    | cons name u =>
        rw [leadsBlank_cons] at hblank
        cases u with
        | nil =>
            obtain ⟨hkind, htext⟩ : name.kind = .identifier ∧ name.text = "_" := by
              simpa [Token.is] using hblank
            exact absurd (by simp [shape, hkind, htext]) hname
        | cons t u =>
            have harrow := condition.kind_ne_arrow (kind_of_is hblank)
            exact ⟨t, rfl, f.ofItems_misled ⟨g.hk, hblank, harrow⟩ _ endOffset⟩

/-- A match whose parameter is called `_`, with a comment in it. -/
private def blankFrame : MatchFrame where
  keyword := ⟨.keyword, "match", ⟨0, 5⟩⟩
  opening := ⟨.leftBrace, "\x7b", ⟨8, 9⟩⟩
  closing := ⟨.rightBrace, "\x7d", ⟨36, 37⟩⟩
  stop := ⟨.semicolon, ";", ⟨37, 38⟩⟩
  hk := rfl
  ho := rfl
  hc := rfl
  hs := rfl
  binders := [⟨.identifier, "_", ⟨6, 7⟩⟩]
  before := [⟨.comment, "//", ⟨9, 11⟩⟩]
  after := []
  params := .oneBinder _ rfl
  earlier := .remark _ rfl .noClause
  later := .noClause

private def blankGuard : GuardFrame where
  keyword := ⟨.keyword, "when", ⟨14, 18⟩⟩
  arrow := ⟨.arrow, "->", ⟨25, 27⟩⟩
  stop := ⟨.semicolon, ";", ⟨30, 31⟩⟩
  hk := rfl
  ha := rfl
  hs := rfl

private def comparedTokens (a b : String) : List Token :=
  [⟨.identifier, a, ⟨19, 20⟩⟩, ⟨.compareOp, "<", ⟨21, 22⟩⟩, ⟨.identifier, b, ⟨23, 24⟩⟩]

private def compared (a b : String) : Expr :=
  .binary .lt (.ident a ⟨19, 20⟩) (.ident b ⟨23, 24⟩) ⟨19, 24⟩

private def bodyTokens : List Token := [⟨.identifier, "y", ⟨28, 29⟩⟩]

private theorem denotes_compared (a b : String) :
    Shape.Denotes ((comparedTokens a b).map shape) (compared a b) :=
  ⟨comparedTokens a b ++ [⟨.semicolon, ";", ⟨24, 25⟩⟩], 25, compared a b, ⟨19, 25⟩, rfl, rfl, rfl⟩

/-- The name `_` on the right of a comparison in a condition, and on its left. -/
theorem Program.ofItems_condition_compared :
    Shape.Denotes ((comparedTokens "x" "_").map shape) (compared "x" "_") ∧
      Shape.Denotes ((comparedTokens "_" "x").map shape) (compared "_" "x") ∧
      Shape.Denotes (bodyTokens.map shape) (.ident "y" ⟨28, 29⟩) ∧
      (∃ c s s', ofItems
          ((blankFrame.word (blankGuard.word (comparedTokens "x" "_") bodyTokens)).map .ok) 38 =
            .ok ⟨[.expression (.matching [⟨"_", ⟨6, 7⟩⟩] [c] s) s']⟩ ∧
          c.bare = .guarded (compared "x" "_").bare (.ident "y" (.point 0)) (.point 0)) ∧
      ofItems ((blankFrame.word (blankGuard.word (comparedTokens "_" "x") bodyTokens)).map .ok) 38 =
        .error ⟨.expectedToken .arrow none .compareOp "<", ⟨21, 22⟩, some .matchClause⟩ := by
  have hbody : Shape.Denotes (bodyTokens.map shape) (.ident "y" ⟨28, 29⟩) :=
    ⟨bodyTokens ++ [⟨.semicolon, ";", ⟨29, 30⟩⟩], 30, .ident "y" ⟨28, 29⟩, ⟨28, 30⟩, rfl, rfl, rfl⟩
  have hright := denotes_compared "x" "_"
  have hleft := denotes_compared "_" "x"
  refine ⟨hright, hleft, hbody, ?_, ?_⟩
  · exact (ofItems_condition hright hbody (by decide) blankFrame blankGuard 38).1 rfl
  · obtain ⟨t, ht, hread⟩ :=
      (ofItems_condition hleft hbody (by decide) blankFrame blankGuard 38).2 rfl
    obtain rfl := Option.some.inj ht
    exact hread

end Clausal
