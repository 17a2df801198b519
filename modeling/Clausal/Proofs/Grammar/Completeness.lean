import Clausal.Proofs.Grammar.Boundary

/-!
The readers read every word of the grammar. A phrase is readable as a value if its reader answers
with that value wherever the phrase ends after the word, given rounds enough for the tokens that
are left. There is one lemma for each production; the rounds shrink with every token, so that what
suffices for a word suffices for its parts.
-/

namespace Clausal

open Clausal.Token Clausal.Parser Clausal.Derivation

/-- What the reader of a phrase does on a word. An expression gets by with more rounds than there
are tokens, one more than that where it is nested. -/
def Phrase.Readable : (s : Phrase) → List Token → s.Meaning → Prop
  | level n, w, e => ∀ rounds inner rest, Stops n rest → (w ++ rest).length < inner →
      (w ++ rest).length < rounds → Reads (binary (Parser.expression inner) rounds n) w rest e
  | chain n, w, ops => ∀ count rounds inner rest left, Stops (n + 1) rest →
      (w ++ rest).length < inner → (w ++ rest).length < rounds → (w ++ rest).length < count →
      Reads (Parser.chain (binary (Parser.expression inner) rounds n) (n + 1) count left) w rest
        (applyChain left ops)
  | primary, w, e => ∀ rounds inner rest, (w ++ rest).length < inner →
      (w ++ rest).length ≤ rounds → Reads (Parser.primary (Parser.expression inner) rounds) w rest e
  | calls, w, cs => ∀ rounds inner rest callee, Stops 0 rest → (w ++ rest).length < inner →
      (w ++ rest).length < rounds →
      Reads (Parser.calls (Parser.expression inner) rounds callee) w rest (applyCalls callee cs)
  | arguments, w, args => ∀ rounds inner rest, (w ++ rest).length < inner →
      (w ++ rest).length ≤ rounds →
      Reads (Parser.arguments (Parser.expression inner) rounds) w rest args.1
  | expressions, w, es => ∀ rounds inner rest, Stops BinaryOp.loosest rest →
      headKind rest .comma = false → (w ++ rest).length + 1 < inner →
      (w ++ rest).length < rounds →
      Reads (commaSeparated (Parser.expression inner) rounds) w rest es
  | names, w, ps => ∀ rounds rest, headKind rest .comma = false → (w ++ rest).length < rounds →
      Reads (commaSeparated ident rounds) w rest ps
  | parameters, w, ps => ∀ rounds rest, (w ++ rest).length ≤ rounds →
      Reads (Parser.parameters rounds) w rest ps
  | binders, w, ps => ∀ rounds rest, (w ++ rest).length ≤ rounds →
      Reads (Parser.binders rounds) w rest ps
  | clause, w, c => ∀ inner rest, (w ++ rest).length < inner →
      Reads (Parser.clause (Parser.expression inner)) w rest c
  | clauses, w, cs => ∀ rounds inner rest, headKind rest .rightBrace = true →
      (w ++ rest).length < inner → (w ++ rest).length < rounds →
      Reads (Parser.clauses (Parser.expression inner) rounds) w rest cs
  | types, w, ts => ∀ rounds rest, headKind rest .comma = false → (w ++ rest).length < rounds →
      Reads (commaSeparated typeName rounds) w rest (ts.1 ++ [ts.2])
  | body, w, m => ∀ rounds rest, Stops BinaryOp.loosest rest →
      (w ++ rest).length + 1 < rounds → Reads (functionBody rounds) w rest m
  | statement, w, s => ∀ rounds rest, (w ++ rest).length + 1 < rounds →
      Reads (Parser.statement rounds) w rest s
  | program, w, ss => ∀ rounds nesting, w.length + 1 < nesting → w.length < rounds →
      Reads (statements nesting rounds) w [] ss

namespace Phrase

variable {u v w : List Token}

/-- An expression is read by the reader that is given one round more. -/
theorem Readable.expression {e : Expr} (h : Readable .expression w e) {rounds : Nat}
    {rest : List Token} (hrest : Stops BinaryOp.loosest rest)
    (hlen : (w ++ rest).length + 1 < rounds) : Reads (Parser.expression rounds) w rest e := by
  obtain ⟨rounds, rfl⟩ : ∃ n, rounds = n + 1 := ⟨rounds - 1, by omega⟩
  exact h rounds rounds rest hrest (by omega) (by omega)

/-- A token that is an expression is read as it is. -/
theorem readable_atom {t : Token} {e : Expr} (hmatch : t.is .keyword "match" = false)
    (hparen : t.kind ≠ .leftParen) (ht : atom? t = some (.ok e)) :
    Readable .primary [t] e := by
  intro rounds inner rest _ _
  refine Reads.look (a := some t) (by simp) ?_
  simp only [hmatch, Bool.false_eq_true, if_false, if_neg hparen, ht]
  exact (reads_consume t rest).map fun _ => e

/-- Brackets around an expression are read as that expression, since no comma comes behind it. -/
theorem readable_grouping {opening closing : Token} {e : Expr} (ho : opening.kind = .leftParen)
    (hc : closing.kind = .rightParen) (inner : Readable .expression w e) :
    Readable .primary (opening :: (w ++ [closing])) e := by
  intro rounds nesting rest hnesting hrounds
  have hclosing : Stops BinaryOp.loosest (closing :: rest) :=
    stops_of_kind _ _ (by simp [hc])
  refine Reads.look (a := some opening) (by simp) ?_
  have hmatch : opening.is .keyword "match" = false := not_is_of_kind _ (by simp [ho])
  simp only [hmatch, Bool.false_eq_true, if_false, if_pos ho]
  refine Reads.within ((reads_expect ho _).cons ?_)
  refine (inner.expression hclosing (by simp at hnesting ⊢; omega)).bind ?_
  refine Reads.bind (u := []) (reads_eat_nothing (by simp [hc])) ?_
  exact (reads_expect hc rest).map fun _ => e

/-- Brackets around an expression, a comma and further expressions are read as a tuple. -/
theorem readable_tuple {opening comma closing : Token} {e : Expr} {es : List Expr}
    (ho : opening.kind = .leftParen) (hm : comma.kind = .comma)
    (hc : closing.kind = .rightParen) (first : Readable .expression u e)
    (others : Readable .expressions v es) :
    Readable .primary (opening :: (u ++ comma :: (v ++ [closing])))
      (.tuple (e :: es) (opening.span.merge closing.span)) := by
  intro rounds nesting rest hnesting hrounds
  have hcomma : Stops BinaryOp.loosest (comma :: ((v ++ [closing]) ++ rest)) :=
    stops_of_kind _ _ (by simp [hm])
  have hclosing : Stops BinaryOp.loosest (closing :: rest) :=
    stops_of_kind _ _ (by simp [hc])
  refine Reads.look (a := some opening) (by simp) ?_
  have hmatch : opening.is .keyword "match" = false := not_is_of_kind _ (by simp [ho])
  simp only [hmatch, Bool.false_eq_true, if_false, if_pos ho]
  refine Reads.within ((reads_expect ho _).cons ?_)
  refine (first.expression hcomma (by simp at hnesting ⊢; omega)).bind ?_
  refine (reads_eat hm _).cons ?_
  refine (others rounds nesting _ hclosing (by simp [hc]) ?_ ?_).bind ?_
  · simp at hnesting ⊢; omega
  · simp at hrounds ⊢; omega
  · exact (reads_expect hc rest).map fun stop =>
      Expr.tuple (e :: es) (opening.span.merge stop.span)

theorem readable_matching {keyword opening closing : Token} {ps : List Ident} {cs : List Clause}
    (hk : keyword.is .keyword "match" = true) (ho : opening.kind = .leftBrace)
    (hc : closing.kind = .rightBrace) (params : Readable .binders u ps)
    (cases : Readable .clauses v cs) :
    Readable .primary (keyword :: (u ++ opening :: (v ++ [closing])))
      (.matching ps cs (keyword.span.merge closing.span)) := by
  intro rounds nesting rest hnesting hrounds
  refine Reads.look (a := some keyword) (by simp) ?_
  simp only [hk, if_true]
  refine Reads.within ((reads_expect (kind_of_is hk) _).cons ?_)
  refine (params rounds _ (by simp at hrounds ⊢; omega)).bind ?_
  refine (reads_expect ho _).cons ?_
  refine (cases rounds nesting _ (by simp [hc]) ?_ ?_).bind ?_
  · simp at hnesting ⊢; omega
  · simp at hrounds ⊢; omega
  · exact (reads_expect hc rest).map fun stop =>
      Expr.matching ps cs (keyword.span.merge stop.span)

theorem readable_called {callee : Expr} {cs : List (List Expr × Span)}
    (d : Derivation .primary u) (hcallee : Readable .primary u callee)
    (others : Readable .calls v cs) : Readable (.level 0) (u ++ v) (applyCalls callee cs) := by
  intro rounds inner rest hrest hinner hrounds
  obtain ⟨rounds, rfl⟩ : ∃ n, rounds = n + 1 := ⟨rounds - 1, by omega⟩
  obtain ⟨t, u, rfl, ht⟩ := d.opens rfl
  have hop : ∀ previous endOffset, Cursor.unaryOperator?
      (.on previous endOffset ((t :: u ++ v) ++ rest)) = none := by
    simp [Cursor.unaryOperator?, ht.unaryOp?_eq_none]
  refine Reads.look hop ?_
  refine (hcallee rounds inner _ ?_ ?_).bind (others rounds inner rest callee hrest ?_ ?_)
  all_goals
    simp only [List.length_append, List.length_cons] at hinner hrounds ⊢
    omega

theorem readable_unary {t : Token} {op : UnaryOp} {e : Expr} (ht : t.unaryOp? = some op)
    (operand : Readable (.level 0) w e) :
    Readable (.level 0) (t :: w) (.unary op e (t.span.merge e.span)) := by
  intro rounds inner rest hrest hinner hrounds
  obtain ⟨rounds, rfl⟩ : ∃ n, rounds = n + 1 := ⟨rounds - 1, by omega⟩
  have hop : ∀ previous endOffset, Cursor.unaryOperator?
      (.on previous endOffset ((t :: w) ++ rest)) = some op := by
    simp [Cursor.unaryOperator?, ht]
  refine Reads.look hop ((reads_consume t _).cons ?_)
  refine (operand rounds inner rest hrest ?_ ?_).map fun e =>
    Expr.unary op e (t.span.merge e.span)
  all_goals
    simp only [List.cons_append, List.length_cons] at hinner hrounds
    omega

/-- The first operand of a level is read, and the chain of its operators behind it. -/
theorem readable_operations {n : Nat} {e : Expr} {ops : List (BinaryOp × Expr)}
    (first : Readable (.level n) u e) (d : Derivation (.chain n) v)
    (others : Readable (.chain n) v ops) :
    Readable (.level (n + 1)) (u ++ v) (applyChain e ops) := by
  intro rounds inner rest hrest hinner hrounds
  refine (first rounds inner _ (d.stops_chain_append hrest) ?_ ?_).bind
    (others rounds rounds inner rest e hrest ?_ ?_ ?_)
  all_goals
    simp only [List.length_append] at hinner hrounds ⊢
    omega

/-- In front of what ends a level, the chain of its operators is read as an empty one. -/
theorem readable_noOperation {n : Nat} : Readable (.chain n) [] [] := by
  intro count rounds inner rest left hrest _ _ hcount
  obtain ⟨count, rfl⟩ : ∃ n, count = n + 1 := ⟨count - 1, by omega⟩
  have hop : ∀ previous endOffset, Cursor.operator? (n + 1)
      (.on previous endOffset ([] ++ rest)) = none := by
    intro previous endOffset
    simp only [Cursor.operator?, Cursor.current_on, List.nil_append, Option.bind_eq_none_iff,
      Option.filter_eq_none_iff, Bool.not_eq_true, beq_eq_false_iff_ne]
    intro t ht op hop
    have := hrest.2 t ht op hop
    omega
  exact Reads.look hop (Reads.pure _ _)

theorem readable_operation {n : Nat} {t : Token} {op : BinaryOp} {e : Expr}
    {ops : List (BinaryOp × Expr)} (ht : t.binaryOp? = some op) (level : op.precedence = n + 1)
    (operand : Readable (.level n) u e) (d : Derivation (.chain n) v)
    (others : Readable (.chain n) v ops) :
    Readable (.chain n) (t :: (u ++ v)) ((op, e) :: ops) := by
  intro count rounds inner rest left hrest hinner hrounds hcount
  obtain ⟨count, rfl⟩ : ∃ n, count = n + 1 := ⟨count - 1, by omega⟩
  have hop : ∀ previous endOffset, Cursor.operator? (n + 1)
      (.on previous endOffset ((t :: (u ++ v)) ++ rest)) = some op := by
    simp [Cursor.operator?, ht, level]
  refine Reads.look hop ((reads_consume t _).cons ?_)
  refine (operand rounds inner _ (d.stops_chain_append hrest) ?_ ?_).bind
    (others count rounds inner rest (.joined op left e) hrest ?_ ?_ ?_)
  all_goals
    simp only [List.cons_append, List.length_cons, List.length_append] at hinner hrounds hcount ⊢
    omega

/-- In front of what is no opening bracket, no call is read. -/
theorem readable_noCall : Readable .calls [] [] := by
  intro rounds inner rest callee hrest _ hrounds
  obtain ⟨rounds, rfl⟩ : ∃ n, rounds = n + 1 := ⟨rounds - 1, by omega⟩
  refine Reads.check ?_
  simp only [List.nil_append, hrest.1, Bool.false_eq_true, if_false]
  exact Reads.pure _ _

/-- The span of a call ends where its closing parenthesis does, which is read last. -/
theorem readable_call {args : List Expr × Span} {cs : List (List Expr × Span)}
    (d : Derivation .arguments u) (hstop : ∀ previous, lastSpan previous u = args.2)
    (hargs : Readable .arguments u args) (others : Readable .calls v cs) :
    Readable .calls (u ++ v) (args :: cs) := by
  intro rounds inner rest callee hrest hinner hrounds
  obtain ⟨rounds, rfl⟩ : ∃ n, rounds = n + 1 := ⟨rounds - 1, by omega⟩
  obtain ⟨t, u', rfl, ht⟩ := d.opens rfl
  have hread := hargs rounds inner (v ++ rest)
    (by simp only [List.length_append, List.length_cons] at hinner ⊢; omega)
    (by simp only [List.length_append, List.length_cons] at hrounds ⊢; omega)
  have hrestRead := others rounds inner rest (.call callee args.1 (callee.span.merge args.2)) hrest
    (by simp only [List.length_append, List.length_cons] at hinner ⊢; omega)
    (by simp only [List.length_append, List.length_cons] at hrounds ⊢; omega)
  refine Reads.check ?_
  have hopen : headKind ((t :: u' ++ v) ++ rest) .leftParen = true := by
    simpa [Phrase.Starts] using ht
  rw [hopen, if_pos rfl]
  intro previous endOffset
  rw [List.append_assoc, bind_apply, hread, lastSpan_append, hstop]
  have hlook : look Cursor.previous (Cursor.on args.2 endOffset (v ++ rest)) =
      .ok args.2 (Cursor.on args.2 endOffset (v ++ rest)) := by
    simp [look]
  simp only [Reply.bind, bind_apply, hlook]
  exact hrestRead args.2 endOffset

theorem readable_noArguments {opening closing : Token} (ho : opening.kind = .leftParen)
    (hc : closing.kind = .rightParen) :
    Readable .arguments [opening, closing] ([], closing.span) := by
  intro rounds inner rest _ _
  refine Reads.within ((reads_expect ho _).cons ?_)
  refine Reads.bind (u := []) (reads_commaSeparatedOrNone_nothing (by simp [hc]) _) ?_
  exact (reads_expect hc rest).map fun _ => []

theorem readable_someArguments {opening closing : Token} {es : List Expr}
    (ho : opening.kind = .leftParen) (hc : closing.kind = .rightParen)
    (d : Derivation .expressions w) (args : Readable .expressions w es) :
    Readable .arguments (opening :: (w ++ [closing])) (es, closing.span) := by
  intro rounds inner rest hinner hrounds
  have hclosing : Stops BinaryOp.loosest (closing :: rest) :=
    stops_of_kind _ _ (by simp [hc])
  refine Reads.within ((reads_expect ho _).cons ?_)
  have hopen : headKind (w ++ ([closing] ++ rest)) .rightParen = false := by
    obtain ⟨t, u, rfl, ht⟩ := d.opens rfl
    simp only [List.cons_append, headKind_cons, beq_eq_false_iff_ne]
    exact ht.kind_ne (by simp)
  have hread := args rounds inner _ hclosing (by simp [hc])
    (by simp at hinner ⊢; omega) (by simp at hrounds ⊢; omega)
  exact (reads_commaSeparatedOrNone hopen hread).bind ((reads_expect hc rest).map fun _ => es)

theorem readable_lastExpression {e : Expr} (he : Readable .expression w e) :
    Readable .expressions w [e] := by
  intro rounds inner rest hrest hcomma hinner hrounds
  obtain ⟨rounds, rfl⟩ : ∃ n, rounds = n + 1 := ⟨rounds - 1, by omega⟩
  exact reads_commaSeparated_last (he.expression hrest hinner) hcomma rounds

theorem readable_nextExpression {comma : Token} {e : Expr} {es : List Expr}
    (hm : comma.kind = .comma) (he : Readable .expression u e)
    (others : Readable .expressions v es) :
    Readable .expressions (u ++ comma :: v) (e :: es) := by
  intro rounds inner rest hrest hcomma hinner hrounds
  obtain ⟨rounds, rfl⟩ : ∃ n, rounds = n + 1 := ⟨rounds - 1, by omega⟩
  have hstop : Stops BinaryOp.loosest (comma :: (v ++ rest)) := stops_of_kind _ _ (by simp [hm])
  refine reads_commaSeparated_next hm (he.expression hstop ?_)
    (others rounds inner rest hrest hcomma ?_ ?_)
  all_goals
    simp at hinner hrounds ⊢
    omega

theorem readable_lastName {t : Token} (ht : t.kind = .identifier) :
    Readable .names [t] [⟨t.text, t.span⟩] := by
  intro rounds rest hcomma hrounds
  obtain ⟨rounds, rfl⟩ : ∃ n, rounds = n + 1 := ⟨rounds - 1, by omega⟩
  exact reads_commaSeparated_last (reads_ident ht rest) hcomma rounds

theorem readable_nextName {t comma : Token} {ps : List Ident} (ht : t.kind = .identifier)
    (hm : comma.kind = .comma) (others : Readable .names w ps) :
    Readable .names (t :: comma :: w) (⟨t.text, t.span⟩ :: ps) := by
  intro rounds rest hcomma hrounds
  obtain ⟨rounds, rfl⟩ : ∃ n, rounds = n + 1 := ⟨rounds - 1, by omega⟩
  exact reads_commaSeparated_next (u := [t]) hm (reads_ident ht _)
    (others rounds rest hcomma (by simp at hrounds ⊢; omega))

theorem readable_noParameters {opening closing : Token} (ho : opening.kind = .leftParen)
    (hc : closing.kind = .rightParen) : Readable .parameters [opening, closing] [] := by
  intro rounds rest _
  refine Reads.within ((reads_expect ho _).cons ?_)
  refine Reads.bind (u := []) (reads_commaSeparatedOrNone_nothing (by simp [hc]) _) ?_
  exact (reads_expect hc rest).map fun _ => []

theorem readable_someParameters {opening closing : Token} {ps : List Ident}
    (ho : opening.kind = .leftParen) (hc : closing.kind = .rightParen)
    (d : Derivation .names w) (hnames : Readable .names w ps) :
    Readable .parameters (opening :: (w ++ [closing])) ps := by
  intro rounds rest hrounds
  refine Reads.within ((reads_expect ho _).cons ?_)
  have hopen : headKind (w ++ ([closing] ++ rest)) .rightParen = false := by
    obtain ⟨t, u, rfl, ht⟩ := d.opens rfl
    simp only [Phrase.Starts] at ht
    simp [ht]
  have hread := hnames rounds ([closing] ++ rest) (by simp [hc]) (by simp at hrounds ⊢; omega)
  exact (reads_commaSeparatedOrNone hopen hread).bind ((reads_expect hc rest).map fun _ => ps)

theorem readable_enclosedBinders {ps : List Ident} (d : Derivation .parameters w)
    (params : Readable .parameters w ps) : Readable .binders w ps := by
  intro rounds rest hrounds
  have hopen : headKind (w ++ rest) .leftParen = true := by
    obtain ⟨t, u, rfl, ht⟩ := d.opens rfl
    simpa [Phrase.Starts] using ht
  refine Reads.check ?_
  rw [hopen, if_pos rfl]
  exact params rounds rest hrounds

theorem readable_oneBinder {t : Token} (ht : t.kind = .identifier) :
    Readable .binders [t] [⟨t.text, t.span⟩] := by
  intro rounds rest _
  have hopen : headKind ([t] ++ rest) .leftParen = false := by simp [ht]
  refine Reads.check ?_
  rw [hopen, if_neg Bool.false_ne_true]
  exact (reads_ident ht rest).map fun param => [param]

/-- The part of a clause from its arrow on, where it is taken in any case. -/
theorem reads_catchAllFrom {arrow stop : Token} {e : Expr} (ha : arrow.kind = .arrow)
    (hs : stop.kind = .semicolon) (result : Readable .expression w e) (start : Span)
    {inner : Nat} {rest : List Token}
    (hinner : (arrow :: (w ++ [stop]) ++ rest).length < inner) :
    Reads (Parser.clause.catchAllFrom (Parser.expression inner) start)
      (arrow :: (w ++ [stop])) rest (.catchAll e (start.merge stop.span)) := by
  have hstop : Stops BinaryOp.loosest (stop :: rest) := stops_of_kind _ _ (by simp [hs])
  refine (reads_expect ha _).cons ?_
  refine (result.expression hstop (by simp at hinner ⊢; omega)).bind ?_
  exact (reads_expect hs rest).map fun stop => Clause.catchAll e (start.merge stop.span)

/-- The blank name behind `when` is taken by itself, and the arrow follows at once. -/
theorem readable_blank {keyword name arrow stop : Token} {e : Expr}
    (hk : keyword.is .keyword "when" = true) (hn : name.is .identifier "_" = true)
    (ha : arrow.kind = .arrow) (hs : stop.kind = .semicolon)
    (result : Readable .expression w e) :
    Readable .clause (keyword :: name :: arrow :: (w ++ [stop]))
      (.catchAll e (keyword.span.merge stop.span)) := by
  intro inner rest hinner
  refine Reads.look (a := keyword.span) (fun _ _ => by simp) (Reads.checkText ?_)
  simp only [List.cons_append, headIs_cons, hk, if_true]
  refine (reads_consume keyword _).cons (Reads.checkText ?_)
  simp only [List.cons_append, headIs_cons, hn, if_true]
  refine (reads_consume name _).cons (reads_catchAllFrom ha hs result _ ?_)
  simp at hinner ⊢
  omega

theorem readable_otherwise {keyword arrow stop : Token} {e : Expr}
    (hk : keyword.is .keyword "otherwise" = true) (ha : arrow.kind = .arrow)
    (hs : stop.kind = .semicolon) (result : Readable .expression w e) :
    Readable .clause (keyword :: arrow :: (w ++ [stop]))
      (.catchAll e (keyword.span.merge stop.span)) := by
  intro inner rest hinner
  have hwhen : keyword.is .keyword "when" = false := by
    simp only [Token.is, Bool.and_eq_true, beq_iff_eq] at hk
    simp [Token.is, hk.2]
  refine Reads.look (a := keyword.span) (fun _ _ => by simp) (Reads.checkText ?_)
  simp only [List.cons_append, headIs_cons, hwhen, Bool.false_eq_true, if_false]
  refine Reads.checkText ?_
  simp only [List.cons_append, headIs_cons, hk, if_true]
  refine (reads_consume keyword _).cons (reads_catchAllFrom ha hs result _ ?_)
  simp at hinner ⊢
  omega

/-- A condition that does not lead with the blank name is read as one. -/
theorem readable_guarded {keyword arrow stop : Token} {c e : Expr}
    (hk : keyword.is .keyword "when" = true) (ha : arrow.kind = .arrow)
    (hs : stop.kind = .semicolon) (d : Derivation .expression u)
    (named : leadsBlank u = false) (condition : Readable .expression u c)
    (result : Readable .expression v e) :
    Readable .clause (keyword :: (u ++ arrow :: (v ++ [stop])))
      (.guarded c e (keyword.span.merge stop.span)) := by
  intro inner rest hinner
  have harrow : Stops BinaryOp.loosest (arrow :: ((v ++ [stop]) ++ rest)) :=
    stops_of_kind _ _ (by simp [ha])
  have hstop : Stops BinaryOp.loosest (stop :: rest) := stops_of_kind _ _ (by simp [hs])
  have hname : headIs ((u ++ arrow :: (v ++ [stop])) ++ rest) .identifier "_" = false := by
    obtain ⟨t, u, rfl, -⟩ := d.opens rfl
    exact named
  refine Reads.look (a := keyword.span) (fun _ _ => by simp) (Reads.checkText ?_)
  simp only [List.cons_append, headIs_cons, hk, if_true]
  refine (reads_consume keyword _).cons (Reads.checkText ?_)
  rw [hname, if_neg Bool.false_ne_true]
  refine (condition.expression harrow (by simp at hinner ⊢; omega)).bind ?_
  refine (reads_expect ha _).cons ?_
  refine (result.expression hstop (by simp at hinner ⊢; omega)).bind ?_
  exact (reads_expect hs rest).map fun stop =>
    Clause.guarded c e (keyword.span.merge stop.span)

theorem readable_noClause : Readable .clauses [] [] := by
  intro rounds inner rest hrest _ hrounds
  obtain ⟨rounds, rfl⟩ : ∃ n, rounds = n + 1 := ⟨rounds - 1, by omega⟩
  refine Reads.check ?_
  rw [List.nil_append, hrest, if_pos rfl]
  exact Reads.pure _ _

/-- A comment among clauses is read and dropped. -/
theorem readable_remark {t : Token} {cs : List Clause} (ht : t.kind = .comment)
    (others : Readable .clauses w cs) : Readable .clauses (t :: w) cs := by
  intro rounds inner rest hrest hinner hrounds
  obtain ⟨rounds, rfl⟩ : ∃ n, rounds = n + 1 := ⟨rounds - 1, by omega⟩
  have hbrace : headKind ((t :: w) ++ rest) .rightBrace = false := by simp [ht]
  refine Reads.check ?_
  rw [hbrace, if_neg Bool.false_ne_true]
  refine (reads_eat ht _).cons (others rounds inner rest hrest ?_ ?_)
  · simp at hinner ⊢; omega
  · simp at hrounds ⊢; omega

theorem readable_nextClause {c : Clause} {cs : List Clause} (d : Derivation .clause u)
    (first : Readable .clause u c) (others : Readable .clauses v cs) :
    Readable .clauses (u ++ v) (c :: cs) := by
  intro rounds inner rest hrest hinner hrounds
  obtain ⟨rounds, rfl⟩ : ∃ n, rounds = n + 1 := ⟨rounds - 1, by omega⟩
  obtain ⟨t, u', rfl, ht⟩ := d.opens rfl
  have hkind : t.kind = .keyword := ht.elim kind_of_is kind_of_is
  have hbrace : headKind ((t :: u' ++ v) ++ rest) .rightBrace = false := by simp [hkind]
  have hcomment : headKind ((t :: u' ++ v) ++ rest) .comment = false := by simp [hkind]
  refine Reads.check ?_
  rw [hbrace, if_neg Bool.false_ne_true]
  refine Reads.bind (u := []) (reads_eat_nothing hcomment) ?_
  refine (Reads.within (first inner (v ++ rest) ?_)).bind
    ((others rounds inner rest hrest ?_ ?_).map (c :: ·))
  all_goals
    simp at hinner hrounds ⊢
    omega

theorem readable_lastType {t : Token} (ht : t.kind = .typeName ∨ t.kind = .identifier) :
    Readable .types [t] ([], t.text) := by
  intro rounds rest hcomma hrounds
  obtain ⟨rounds, rfl⟩ : ∃ n, rounds = n + 1 := ⟨rounds - 1, by omega⟩
  exact reads_commaSeparated_last (reads_typeName ht rest) hcomma rounds

theorem readable_nextType {t comma : Token} {ts : List String × String}
    (ht : t.kind = .typeName ∨ t.kind = .identifier) (hm : comma.kind = .comma)
    (others : Readable .types w ts) :
    Readable .types (t :: comma :: w) (t.text :: ts.1, ts.2) := by
  intro rounds rest hcomma hrounds
  obtain ⟨rounds, rfl⟩ : ∃ n, rounds = n + 1 := ⟨rounds - 1, by omega⟩
  exact reads_commaSeparated_next (u := [t]) hm (reads_typeName ht _)
    (others rounds rest hcomma (by simp at hrounds ⊢; omega))

/-- A body that opens with a bracket is read as a function that always gives its result. -/
theorem readable_sugared {assign : Token} {ps : List Ident} {e : Expr}
    (ha : assign.kind = .assign) (d : Derivation .parameters u)
    (params : Readable .parameters u ps) (result : Readable .expression v e) :
    Readable .body (u ++ assign :: v) (.always ps e) := by
  intro rounds rest hrest hrounds
  have hopen : headKind ((u ++ assign :: v) ++ rest) .leftParen = true := by
    obtain ⟨t, u, rfl, ht⟩ := d.opens rfl
    simpa [Phrase.Starts] using ht
  refine Reads.check ?_
  rw [hopen, if_pos rfl]
  refine (params rounds _ (by simp at hrounds ⊢; omega)).bind ((reads_expect ha _).cons ?_)
  exact (result.expression hrest (by simp at hrounds ⊢; omega)).map fun e => Match.always ps e

theorem readable_plain {assign : Token} {e : Expr} (ha : assign.kind = .assign)
    (result : Readable .expression w e) : Readable .body (assign :: w) (.ofExpr e) := by
  intro rounds rest hrest hrounds
  have hopen : headKind ((assign :: w) ++ rest) .leftParen = false := by simp [ha]
  refine Reads.check ?_
  rw [hopen, if_neg Bool.false_ne_true]
  refine (reads_expect ha _).cons ?_
  exact (result.expression hrest (by simp at hrounds ⊢; omega)).map Match.ofExpr

theorem readable_comment {t : Token} (ht : t.kind = .comment) :
    Readable .statement [t] (.comment t.text t.span) := by
  intro rounds rest _
  refine Reads.check ?_
  simp only [List.cons_append, headKind_cons, ht, beq_self_eq_true, if_true]
  exact (reads_consume t rest).map fun t => Statement.comment t.text t.span

/-- The types of a declaration, between their brackets. -/
theorem reads_typeList {opening closing : Token} {ts : List String × String}
    (ho : opening.is .compareOp "<" = true) (hc : closing.is .compareOp ">" = true)
    (d : Derivation .types w) (types : Readable .types w ts) {rounds : Nat} {rest : List Token}
    (hrounds : (opening :: (w ++ [closing]) ++ rest).length ≤ rounds) :
    Reads (typeList rounds) (opening :: (w ++ [closing])) rest (ts.1 ++ [ts.2]) := by
  refine Reads.within ((reads_expectText ho _).cons ?_)
  refine Reads.bind (Reads.checkText ?_)
    ((reads_expectText hc rest).map fun _ => ts.1 ++ [ts.2])
  have hclose : headIs (w ++ ([closing] ++ rest)) .compareOp ">" = false := by
    obtain ⟨t, u, rfl, ht⟩ := d.opens rfl
    have hkind : t.kind ≠ .compareOp := by rcases ht with ht | ht <;> simp [ht]
    exact not_is_of_kind _ hkind
  rw [hclose, if_neg Bool.false_ne_true]
  refine types rounds _ ?_ (by simp at hrounds ⊢; omega)
  simp [kind_of_is hc]

/-- A declaration is told by its opening sign. -/
theorem readable_function {opening closing name stop : Token} {ts : List String × String}
    {m : Match} (ho : opening.is .compareOp "<" = true) (hc : closing.is .compareOp ">" = true)
    (hn : name.kind = .identifier) (hs : stop.kind = .semicolon) (d : Derivation .types u)
    (types : Readable .types u ts) (hbody : Readable .body v m) :
    Readable .statement (opening :: (u ++ closing :: name :: (v ++ [stop])))
      (.function ⟨name.text, ts.1, ts.2, m.paramNames, m⟩ (opening.span.merge stop.span)) := by
  intro rounds rest hrounds
  have hstop : Stops BinaryOp.loosest (stop :: rest) := stops_of_kind _ _ (by simp [hs])
  have hlist : Reads (typeList rounds) (opening :: (u ++ [closing]))
      ((name :: (v ++ [stop])) ++ rest) (ts.1 ++ [ts.2]) :=
    reads_typeList ho hc d types (by simp at hrounds ⊢; omega)
  have hword : opening :: (u ++ closing :: name :: (v ++ [stop])) =
      opening :: (u ++ [closing]) ++ (name :: (v ++ [stop])) := by simp
  rw [hword]
  refine Reads.check ?_
  simp only [List.cons_append, headKind_cons, kind_of_is ho, reduceCtorEq, beq_iff_eq, if_false]
  refine Reads.checkText ?_
  simp only [List.cons_append, headIs_cons, ho, if_true]
  refine Reads.within (Reads.look (a := opening.span) (fun _ _ => by simp) ?_)
  refine hlist.bind ?_
  simp only [List.getLast?_concat, List.dropLast_concat]
  refine (reads_expect hn _).cons ?_
  refine (hbody rounds _ hstop (by simp at hrounds ⊢; omega)).bind ?_
  exact (reads_expect hs rest).map fun stop =>
    Statement.function ⟨name.text, ts.1, ts.2, m.paramNames, m⟩ (opening.span.merge stop.span)

/-- A definition is told by the name of a type at its front. -/
theorem readable_define {type name assign stop : Token} {e : Expr}
    (ht : type.kind = .typeName) (hn : name.kind = .identifier) (ha : assign.kind = .assign)
    (hs : stop.kind = .semicolon) (init : Readable .expression w e) :
    Readable .statement (type :: name :: assign :: (w ++ [stop]))
      (.define type.text name.text e (type.span.merge stop.span)) := by
  intro rounds rest hrounds
  have hstop : Stops BinaryOp.loosest (stop :: rest) := stops_of_kind _ _ (by simp [hs])
  have hless : type.is .compareOp "<" = false := not_is_of_kind _ (by simp [ht])
  refine Reads.check ?_
  simp only [List.cons_append, headKind_cons, ht, reduceCtorEq, beq_iff_eq, if_false]
  refine Reads.checkText ?_
  simp only [List.cons_append, headIs_cons, hless, Bool.false_eq_true, if_false]
  refine Reads.check ?_
  simp only [List.cons_append, headKind_cons, ht, beq_self_eq_true, if_true]
  refine Reads.within ((reads_expect ht _).cons ((reads_expect hn _).cons ?_))
  refine (reads_expect ha _).cons ?_
  refine (init.expression hstop (by simp at hrounds ⊢; omega)).bind ?_
  exact (reads_expect hs rest).map fun stop =>
    Statement.define type.text name.text e (type.span.merge stop.span)

/-- A statement that is no comment, no declaration and no definition is an expression. -/
theorem readable_statement_expression {stop : Token} {e : Expr} (hs : stop.kind = .semicolon)
    (d : Derivation .expression w) (he : Readable .expression w e) :
    Readable .statement (w ++ [stop]) (.expression e (e.span.merge stop.span)) := by
  intro rounds rest hrounds
  have hstop : Stops BinaryOp.loosest (stop :: rest) := stops_of_kind _ _ (by simp [hs])
  have hstart : headKind ((w ++ [stop]) ++ rest) .comment = false ∧
      headIs ((w ++ [stop]) ++ rest) .compareOp "<" = false ∧
      headKind ((w ++ [stop]) ++ rest) .typeName = false := by
    obtain ⟨t, u, rfl, ht⟩ := d.opens rfl
    refine ⟨?_, not_is_of_kind _ (ht.kind_ne (by simp)), ?_⟩
    all_goals
      simp only [List.cons_append, headKind_cons, beq_eq_false_iff_ne]
      exact ht.kind_ne (by simp)
  refine Reads.check ?_
  rw [hstart.1, if_neg Bool.false_ne_true]
  refine Reads.checkText ?_
  rw [hstart.2.1, if_neg Bool.false_ne_true]
  refine Reads.check ?_
  rw [hstart.2.2, if_neg Bool.false_ne_true]
  refine Reads.within ((he.expression hstop (by simp at hrounds ⊢; omega)).bind ?_)
  exact (reads_expect hs rest).map fun stop => Statement.expression e (e.span.merge stop.span)

theorem readable_noStatement : Readable .program [] [] := by
  intro rounds nesting _ hrounds
  obtain ⟨rounds, rfl⟩ : ∃ n, rounds = n + 1 := ⟨rounds - 1, by simp at hrounds; omega⟩
  exact Reads.look (a := true) (fun _ _ => rfl) (Reads.pure _ _)

theorem readable_nextStatement {s : Statement} {ss : List Statement} (d : Derivation .statement u)
    (first : Readable .statement u s) (others : Readable .program v ss) :
    Readable .program (u ++ v) (s :: ss) := by
  intro rounds nesting hnesting hrounds
  obtain ⟨rounds, rfl⟩ : ∃ n, rounds = n + 1 := ⟨rounds - 1, by omega⟩
  obtain ⟨t, u', rfl, -⟩ := d.opens rfl
  refine Reads.look (a := false) (fun _ _ => rfl) ?_
  refine (first nesting _ (by simp at hnesting ⊢; omega)).bind ?_
  refine (others rounds nesting ?_ ?_).map (s :: ·)
  · simp at hnesting ⊢; omega
  · simp at hrounds ⊢; omega

end Phrase

namespace Derivation

open Phrase

/-- Every word of a phrase is read as what it means. -/
theorem readable {s : Phrase} {w : List Token} (d : Derivation s w) :
    s.Readable w d.meaning := by
  induction d with
  | number t ht finite =>
      refine readable_atom (not_is_of_kind _ (by simp [ht])) (by simp [ht]) ?_
      simp [atom?, ht, Literal.numberValue?, finite, meaning]
  | string t ht | boolean t ht | ident t ht =>
      refine readable_atom (not_is_of_kind _ (by simp [ht])) (by simp [ht]) ?_
      simp [atom?, ht, meaning]
  | grouping _ _ ho hc _ ih => exact readable_grouping ho hc ih
  | tuple _ _ _ ho hm hc _ _ ih ihs => exact readable_tuple ho hm hc ih ihs
  | matching _ _ _ hk ho hc _ _ ihp ihc => exact readable_matching hk ho hc ihp ihc
  | called callee _ ih ihs => exact readable_called callee ih ihs
  | unary _ _ ht _ ih => exact readable_unary ht ih
  | operations _ others ih ihs => exact readable_operations ih others ihs
  | noOperation => exact readable_noOperation
  | operation _ _ ht level _ others ih ihs => exact readable_operation ht level ih others ihs
  | noCall => exact readable_noCall
  | call args _ ih ihs => exact readable_call args (lastSpan_arguments args) ih ihs
  | noArguments _ _ ho hc => exact readable_noArguments ho hc
  | someArguments _ _ ho hc args ih => exact readable_someArguments ho hc args ih
  | lastExpression _ ih => exact readable_lastExpression ih
  | nextExpression _ hm _ _ ih ihs => exact readable_nextExpression hm ih ihs
  | lastName _ ht => exact readable_lastName ht
  | nextName _ _ ht hm _ ih => exact readable_nextName ht hm ih
  | noParameters _ _ ho hc => exact readable_noParameters ho hc
  | someParameters _ _ ho hc names ih => exact readable_someParameters ho hc names ih
  | enclosedBinders params ih => exact readable_enclosedBinders params ih
  | oneBinder _ ht => exact readable_oneBinder ht
  | blank _ _ _ _ hk hn ha hs _ ih => exact readable_blank hk hn ha hs ih
  | otherwise _ _ _ hk ha hs _ ih => exact readable_otherwise hk ha hs ih
  | guarded _ _ _ hk ha hs condition named _ ihc ihr =>
      exact readable_guarded hk ha hs condition named ihc ihr
  | noClause => exact readable_noClause
  | remark _ ht _ ih => exact readable_remark ht ih
  | nextClause first _ ih ihs => exact readable_nextClause first ih ihs
  | lastType _ ht => exact readable_lastType ht
  | nextType _ _ ht hm _ ih => exact readable_nextType ht hm ih
  | sugared _ ha params _ ihp ihr => exact readable_sugared ha params ihp ihr
  | plain _ ha _ ih => exact readable_plain ha ih
  | comment _ ht => exact readable_comment ht
  | function _ _ _ _ ho hc hn hs types _ iht ihb =>
      exact readable_function ho hc hn hs types iht ihb
  | define _ _ _ _ ht hn ha hs _ ih => exact readable_define ht hn ha hs ih
  | expression _ hs e ih => exact readable_statement_expression hs e ih
  | noStatement => exact readable_noStatement
  | nextStatement first _ ih ihs => exact readable_nextStatement first ih ihs

/-- A program of the grammar is accepted, with the tree that its derivation means. -/
theorem ofItems_eq_ok {w : List Token} (d : Derivation .program w) (endOffset : Nat) :
    Program.ofItems (w.map .ok) endOffset = .ok ⟨d.meaning⟩ := by
  have hread := d.readable (w.length + 2) (w.length + 2) (by omega) (by omega) (.point 0) endOffset
  rw [List.append_nil] at hread
  simp only [Program.ofItems, Cursor.ofItems_map_ok, List.length_map, hread]

end Derivation

end Clausal
