import Clausal.Proofs.Session.Nesting
import Clausal.Proofs.Tree.Parts
import Clausal.Proofs.Tree.Reparsing

/-!
The words at the spans of a tree. Parentheses around one expression leave no trace in its span, so
the span of an expression runs over the core of the word that it was read from, where parentheses at
the front and at the back may be missing. A span that takes its ends from the spans of operands may
so leave out one end of a pair and keep the other; that shows in the brackets of the core. Where
they are in order, nothing was left out, and the core derives as the expression.
-/

namespace Clausal

open Token

/-- The span runs from the start of the first token of the word to the end of its last one. -/
structure Span.RunsOver (s : Span) (w : List Token) : Prop where
  start : ∃ t ∈ w.head?, s.start = t.span.start
  stop : ∃ t ∈ w.getLast?, s.stop = t.span.stop

/-- The tokens neither start nor end before those in front of them. -/
def InOrder (w : List Token) : Prop :=
  w.Pairwise fun a b => a.span.start ≤ b.span.start ∧ a.span.stop ≤ b.span.stop

/-- No bracket of the word is closed before it is opened, and all of them are closed. -/
structure Bracketed (w : List Token) : Prop where
  nesting : nesting w = 0
  opened : ∀ v, v <+: w → 0 ≤ Clausal.nesting v

theorem Settled.bracketed {w : List Token} (h : Settled 0 w) : Bracketed w := by
  refine ⟨h.nesting, ?_⟩
  rintro v ⟨rest, rfl⟩
  have hfront := (Steady.append_iff.mp h.steady).1.nesting_nonneg (Int.le_refl 0)
  rwa [Int.zero_add] at hfront

namespace Span.RunsOver

variable {s s' : Span} {u v w : List Token} {t : Token}

theorem single (t : Token) : t.span.RunsOver [t] := ⟨⟨t, rfl, rfl⟩, ⟨t, rfl, rfl⟩⟩

theorem merge (hu : s.RunsOver u) (hv : s'.RunsOver v) (h : InOrder (u ++ (w ++ v))) :
    (s.merge s').RunsOver (u ++ (w ++ v)) := by
  obtain ⟨⟨first, hfirst, hstart⟩, last, hlast, hstop⟩ := hu
  obtain ⟨⟨first', hfirst', hstart'⟩, last', hlast', hstop'⟩ := hv
  obtain ⟨-, -, hacross⟩ := List.pairwise_append.mp h
  refine ⟨⟨first, ?_, ?_⟩, last', ?_, ?_⟩
  · rw [List.head?_append, Option.mem_def.mp hfirst]
    rfl
  · have hle := (hacross first (List.mem_of_mem_head? hfirst) first'
      (List.mem_append_right w (List.mem_of_mem_head? hfirst'))).1
    rw [Span.merge, hstart, hstart', Nat.min_eq_left hle]
  · rw [List.getLast?_append, List.getLast?_append, Option.mem_def.mp hlast']
    rfl
  · have hle := (hacross last (List.mem_of_mem_getLast? hlast) last'
      (List.mem_append_right w (List.mem_of_mem_getLast? hlast'))).2
    rw [Span.merge, hstop, hstop', Nat.max_eq_right hle]

end Span.RunsOver

/-- The word is what the span of the expression runs over, and no comment ends it. -/
structure Expr.Core (e : Expr) (core : List Token) : Prop where
  span : e.span.RunsOver core
  last : ∀ t ∈ core.getLast?, t.kind ≠ .comment

/-- The word has a core of the expression, with parentheses alone around it. -/
def Expr.StandsIn (e : Expr) (w : List Token) : Prop :=
  ∃ u core v, w = u ++ (core ++ v) ∧ (∀ t ∈ u, t.kind = .leftParen) ∧
    (∀ t ∈ v, t.kind = .rightParen) ∧ e.Core core

/-- The word has a core of the expression, which derives as it if its brackets are in order. -/
def Expr.ReadIn (e : Expr) (w : List Token) : Prop :=
  ∃ before core after, w = before ++ (core ++ after) ∧ e.Core core ∧
    (Bracketed core → ∃ d : Derivation .expression core, d.meaning = e)

/-- The expression was read from the word, and each of its parts in it. -/
structure Expr.Sliced (e : Expr) (w : List Token) : Prop where
  stands : e.StandsIn w
  parts : ∀ x ∈ e.parts, x.ReadIn w

namespace Expr

variable {e x : Expr} {s s' : Span} {u v w core : List Token}

theorem ReadIn.mono (h : e.ReadIn w) (hw : w <:+: v) : e.ReadIn v := by
  obtain ⟨a, b, rfl⟩ := hw
  obtain ⟨before, core, after, rfl, hcore⟩ := h
  exact ⟨a ++ before, core, after ++ b, by simp, hcore⟩

/-- Where the brackets of the core are in order, no parenthesis was left out around it. -/
theorem readIn_of_edges (hw : w = u ++ (core ++ v)) (hu : ∀ t ∈ u, t.kind = .leftParen)
    (hv : ∀ t ∈ v, t.kind = .rightParen) (hcore : e.Core core)
    (hfront : ∃ front, front <+: core ∧ nesting u + nesting front = 0)
    (d : Derivation .expression w) (hd : d.meaning = e) : e.ReadIn w := by
  refine ⟨u, core, v, hw, hcore, fun hb => ?_⟩
  have hsettled : Settled 0 w := d.nests
  have hnesting := hsettled.nesting
  obtain ⟨front, hfront, hclosed⟩ := hfront
  have hopened := hb.opened front hfront
  rw [hw, nesting_append, nesting_append, hb.nesting, nesting_closing hv] at hnesting
  rw [nesting_opening hu] at hnesting hclosed
  obtain rfl : u = [] := List.eq_nil_of_length_eq_zero (by omega)
  obtain rfl : v = [] := List.eq_nil_of_length_eq_zero (by simpa using hnesting)
  obtain rfl : w = core := by simpa using hw
  exact ⟨d, hd⟩

/-- An expression that reaches from one end of its word to the other. -/
theorem sliced_whole (hcore : e.Core w) (d : Derivation .primary w) (hd : d.meaning = e)
    (hparts : ∀ x ∈ e.parts, x = e ∨ x.ReadIn w) : e.Sliced w := by
  obtain ⟨d', hd'⟩ := d.exists_expression
  have hself : e.ReadIn w :=
    ⟨[], w, [], by simp, hcore, fun _ => ⟨d', hd'.trans hd⟩⟩
  refine ⟨⟨[], w, [], by simp, by simp, by simp, hcore⟩, fun x hx => ?_⟩
  rcases hparts x hx with rfl | hx
  · exact hself
  · exact hx

/-- An expression that has the place of one token is read from that token. -/
theorem core_single {t : Token} (hs : e.span = t.span) (ht : t.kind ≠ .comment) : e.Core [t] := by
  refine ⟨hs ▸ .single t, fun t' ht' => ?_⟩
  obtain rfl : t = t' := by simpa using ht'
  exact ht

/-- The core of an expression whose span reaches from one span to another. -/
theorem core_merge (hs : e.span = s.merge s') (hu : s.RunsOver u) (hv : s'.RunsOver v)
    (hlast : ∀ t ∈ v.getLast?, t.kind ≠ .comment) (h : InOrder (u ++ (w ++ v))) :
    e.Core (u ++ (w ++ v)) := by
  refine ⟨hs ▸ hu.merge hv h, fun t ht => hlast t ?_⟩
  obtain ⟨last, hmem, -⟩ := hv.stop
  rw [List.getLast?_append, List.getLast?_append, Option.mem_def.mp hmem] at ht
  rwa [Option.mem_def.mp hmem]

end Expr

/-- The expressions of a body as it is written: where a body was wrapped in a match, the clause of
the match stands where the match does. -/
def Match.nodes (m : Match) : List Expr :=
  match m.clauses with
  | [.catchAll body s] => if s = m.span then body.parts else m.toExpr.parts
  | _ => m.toExpr.parts

/-- The expressions of a statement at any depth, as they are written. -/
def Statement.nodes : Statement → List Expr
  | .function d _ => d.body.nodes
  | s => s.parts

def Program.nodes (p : Program) : List Expr := p.statements.flatMap (·.nodes)

theorem Match.nodes_always (params : List Ident) (body : Expr) :
    (Match.always params body).nodes = body.parts := if_pos rfl

/-- The nodes of a match that an expression stands for are parts of the expression. -/
theorem Match.nodes_ofExpr_subset (e : Expr) : (Match.ofExpr e).nodes ⊆ e.parts := by
  cases e with
  | matching params clauses s =>
      rw [ofExpr, nodes]
      split
      · next body s' hclauses =>
        obtain rfl : clauses = [.catchAll body s'] := hclauses
        split
        · exact fun x hx => List.mem_cons_of_mem _ (List.mem_append_left [] hx)
        · exact List.Subset.refl _
      · exact List.Subset.refl _
  | _ => exact fun x hx => (nodes_always [] _) ▸ hx

/-- The span of a statement runs over its word; only where an expression is its first part may
parentheses be missing at the front. -/
def Statement.StandsIn (s : Statement) (w : List Token) : Prop :=
  ∃ u core, w = u ++ core ∧ (∀ t ∈ u, t.kind = .leftParen) ∧ s.span.RunsOver core ∧
    ((∀ e s', s ≠ .expression e s') → u = [])

theorem InOrder.mono {w v : List Token} (h : InOrder v) (hw : w <:+: v) : InOrder w :=
  List.Pairwise.sublist hw.sublist h

theorem InOrder.middle {u w v : List Token} (h : InOrder (u ++ (w ++ v))) : InOrder w :=
  h.mono ⟨u, v, by simp⟩

namespace Derivation

variable {u v w : List Token}

/-- An operation goes on with an expression of its level. -/
theorem exists_joined {n : Nat} {t : Token} {op : BinaryOp} (ht : t.binaryOp? = some op)
    (level : op.precedence = n + 1) (left : Derivation (.level (n + 1)) u)
    (operand : Derivation (.level n) v) :
    ∃ d : Derivation (.level (n + 1)) (u ++ t :: v),
      d.meaning = Expr.joined op left.meaning operand.meaning := by
  cases left with
  | operations first others =>
      obtain ⟨chain, hchain⟩ := chain_append ht level operand others rfl
      rw [List.append_assoc]
      refine ⟨.operations first chain, ?_⟩
      rw [meaning, hchain, applyChain, List.foldl_append]
      rfl

/-- An operation that is joined to the left has the place that both operands and its operator
take. -/
theorem sliced_joined {n : Nat} {t : Token} {op : BinaryOp} (ht : t.binaryOp? = some op)
    (level : op.precedence = n + 1) (left : Derivation (.level (n + 1)) u)
    (operand : Derivation (.level n) v) (h : InOrder (u ++ t :: v))
    (hleft : Expr.Sliced left.meaning u) (hoperand : Expr.Sliced operand.meaning v) :
    Expr.Sliced (Expr.joined op left.meaning operand.meaning) (u ++ t :: v) := by
  obtain ⟨d, hd⟩ := exists_joined ht level left operand
  have hlevel : n + 1 ≤ BinaryOp.loosest := level ▸ op.precedence_le_loosest
  obtain ⟨d, hd'⟩ := d.exists_level hlevel
  obtain ⟨a, core, b, hu, ha, hb, hcore⟩ := hleft.stands
  obtain ⟨a', core', b', hv, ha', hb', hcore'⟩ := hoperand.stands
  have hword : u ++ t :: v = a ++ ((core ++ ((b ++ t :: a') ++ core')) ++ b') := by
    rw [hu, hv]
    simp
  have hjoined : (Expr.joined op left.meaning operand.meaning).Core
      (core ++ ((b ++ t :: a') ++ core')) := by
    refine Expr.core_merge rfl hcore.span hcore'.span hcore'.last ?_
    rw [hword] at h
    exact h.middle
  have hsettled : Settled 0 u := left.nests
  have hclosed : nesting a + nesting (core ++ b) = 0 := by
    rw [← nesting_append, ← hu, hsettled.nesting]
  have hself := Expr.readIn_of_edges hword ha hb' hjoined
    ⟨core ++ b, ⟨t :: (a' ++ core'), by simp⟩, hclosed⟩ d (hd'.trans hd)
  refine ⟨⟨a, _, b', hword, ha, hb', hjoined⟩, fun x hx => ?_⟩
  rcases List.mem_cons.mp hx with rfl | hx
  · exact hself
  · rcases List.mem_append.mp hx with hx | hx
    · exact (hleft.parts x hx).mono ⟨[], t :: v, rfl⟩
    · exact (hoperand.parts x hx).mono ⟨u ++ [t], [], by simp⟩

/-- A call of what was called so far. -/
theorem sliced_call (callee : Derivation .primary u) (calls : Derivation .calls v)
    (args : Derivation .arguments w) (h : InOrder (u ++ (v ++ w)))
    (hcallee : Expr.Sliced (applyCalls callee.meaning calls.meaning) (u ++ v))
    (hclosing : ∃ x t, w = x ++ [t] ∧ args.meaning.2 = t.span ∧ t.kind = .rightParen)
    (hargs : ∀ e ∈ args.meaning.1, ∀ x ∈ Expr.parts e, x.ReadIn w) :
    Expr.Sliced (applyCalls callee.meaning (calls.meaning ++ [args.meaning])) (u ++ (v ++ w)) := by
  obtain ⟨more, hmore⟩ := calls_append args calls rfl
  obtain ⟨d, hd⟩ := (Derivation.called callee more).exists_level (Nat.zero_le BinaryOp.loosest)
  rw [meaning, hmore] at hd
  obtain ⟨a, core, b, hword, ha, hb, hcore⟩ := hcallee.stands
  obtain ⟨x, t, rfl, hclosing, ht⟩ := hclosing
  have hcalled : applyCalls callee.meaning (calls.meaning ++ [args.meaning]) =
      Expr.call (applyCalls callee.meaning calls.meaning) args.meaning.1
        ((Expr.span (applyCalls callee.meaning calls.meaning)).merge t.span) := by
    rw [applyCalls, List.foldl_append, ← hclosing]
    rfl
  have hwhole : u ++ (v ++ (x ++ [t])) = a ++ ((core ++ ((b ++ x) ++ [t])) ++ []) := by
    rw [← List.append_assoc, hword]
    simp
  rw [hcalled] at hd ⊢
  have hcall : Expr.Core (.call (applyCalls callee.meaning calls.meaning) args.meaning.1
      ((Expr.span (applyCalls callee.meaning calls.meaning)).merge t.span))
      (core ++ ((b ++ x) ++ [t])) := by
    refine Expr.core_merge rfl hcore.span (.single t) (fun t' ht' => ?_) ?_
    · obtain rfl : t = t' := by simpa using ht'
      rw [ht]
      decide
    · rw [hwhole] at h
      exact h.middle
  have hsettled : Settled 0 (u ++ v) := (Derivation.called callee calls).nests
  have hclosed : nesting a + nesting (core ++ b) = 0 := by
    rw [← nesting_append, ← hword, hsettled.nesting]
  have hself := Expr.readIn_of_edges hwhole ha (by simp) hcall
    ⟨core ++ b, ⟨x ++ [t], by simp⟩, hclosed⟩ d hd
  refine ⟨⟨a, _, [], hwhole, ha, by simp, hcall⟩, fun y hy => ?_⟩
  rcases List.mem_cons.mp hy with rfl | hy
  · exact hself
  · rcases List.mem_append.mp hy with hy | hy
    · exact (hcallee.parts y hy).mono ⟨[], x ++ [t], by simp⟩
    · rw [Expr.partsOfList_eq] at hy
      obtain ⟨e, he, hy⟩ := List.mem_flatMap.mp hy
      exact (hargs e he y hy).mono ⟨u ++ v, [], by simp⟩

/-- An operator in front of an operand has the place of both. -/
theorem sliced_unary {t : Token} {op : UnaryOp} (ht : t.unaryOp? = some op)
    (operand : Derivation (.level 0) w) (h : InOrder (t :: w))
    (hoperand : Expr.Sliced operand.meaning w) :
    Expr.Sliced (Expr.unary op operand.meaning (t.span.merge (Expr.span operand.meaning)))
      (t :: w) := by
  obtain ⟨d, hd⟩ := (Derivation.unary t op ht operand).exists_level
    (Nat.zero_le BinaryOp.loosest)
  obtain ⟨a, core, b, rfl, ha, hb, hcore⟩ := hoperand.stands
  have hword : t :: (a ++ (core ++ b)) = [] ++ (([t] ++ (a ++ core)) ++ b) := by simp
  have hunary : Expr.Core (.unary op operand.meaning (t.span.merge (Expr.span operand.meaning)))
      ([t] ++ (a ++ core)) := by
    refine Expr.core_merge rfl (.single t) hcore.span hcore.last ?_
    rw [hword] at h
    exact h.middle
  have hself := Expr.readIn_of_edges hword (by simp) hb hunary
    ⟨[], List.nil_prefix, rfl⟩ d hd
  refine ⟨⟨[], _, b, hword, by simp, hb, hunary⟩, fun x hx => ?_⟩
  rcases List.mem_cons.mp hx with rfl | hx
  · exact hself
  · exact (hoperand.parts x hx).mono ⟨[t], [], by simp⟩

end Derivation

/-- What holds of the meaning of a word. Operations and calls go on with what was read before. -/
def Phrase.Sliced (w : List Token) : (s : Phrase) → s.Meaning → Prop
  | level _ | primary => fun e => Expr.Sliced e w
  | chain n => fun m => ∀ (u : List Token) (left : Derivation (.level (n + 1)) u),
      InOrder (u ++ w) → Expr.Sliced left.meaning u →
      Expr.Sliced (Derivation.applyChain left.meaning m) (u ++ w)
  | calls => fun m => ∀ (u v : List Token) (callee : Derivation .primary u)
      (calls : Derivation .calls v), InOrder (u ++ (v ++ w)) →
      Expr.Sliced (Derivation.applyCalls callee.meaning calls.meaning) (u ++ v) →
      Expr.Sliced (Derivation.applyCalls callee.meaning (calls.meaning ++ m)) (u ++ (v ++ w))
  | arguments => fun m => (∃ x t, w = x ++ [t] ∧ m.2 = t.span ∧ t.kind = .rightParen) ∧
      ∀ e ∈ m.1, ∀ x ∈ Expr.parts e, x.ReadIn w
  | expressions => fun m => ∀ e ∈ m, ∀ x ∈ Expr.parts e, x.ReadIn w
  | names | parameters | binders | types | program => fun _ => True
  | clause => fun m => ∀ x ∈ Clause.parts m, x.ReadIn w
  | clauses => fun m => ∀ c ∈ m, ∀ x ∈ Clause.parts c, x.ReadIn w
  | body => fun m => ∀ x ∈ Match.nodes m, x.ReadIn w
  | statement => fun m => Statement.StandsIn m w ∧ ∀ x ∈ Statement.nodes m, x.ReadIn w

namespace Derivation

/-- From the opening token to the closing one is all of the word. -/
theorem runsOver_between {word w : List Token} {opening closing : Token}
    (hw : word = opening :: (w ++ [closing])) (h : InOrder word) :
    (opening.span.merge closing.span).RunsOver word := by
  subst hw
  exact (Span.RunsOver.single opening).merge (.single closing) h

/-- An expression between two tokens of its own is read from all of its word. -/
theorem core_between {e : Expr} {word w : List Token} {opening closing : Token}
    (hs : e.span = opening.span.merge closing.span) (hc : closing.kind ≠ .comment)
    (hw : word = opening :: (w ++ [closing])) (h : InOrder word) : e.Core word := by
  refine ⟨hs ▸ runsOver_between hw h, fun t ht => ?_⟩
  rw [hw, ← List.cons_append, List.getLast?_concat] at ht
  exact Option.some.inj ht ▸ hc

theorem sliced_atom {e : Expr} {t : Token} {kind : Kind} (ht : t.kind = kind)
    (hkind : kind ≠ .comment) (hs : e.span = t.span) (d : Derivation .primary [t])
    (hd : d.meaning = e) (hparts : e.parts = [e]) : Expr.Sliced e [t] := by
  refine Expr.sliced_whole (Expr.core_single hs (ht ▸ hkind)) d hd fun x hx => .inl ?_
  rw [hparts] at hx
  exact List.mem_singleton.mp hx

/-- Parentheses around an expression stand around its core as well. -/
theorem sliced_grouping {e : Expr} {w : List Token} {opening closing : Token}
    (ho : opening.kind = .leftParen) (hc : closing.kind = .rightParen) (h : Expr.Sliced e w) :
    Expr.Sliced e (opening :: (w ++ [closing])) := by
  obtain ⟨⟨u, core, v, rfl, hu, hv, hcore⟩, hparts⟩ := h
  refine ⟨⟨opening :: u, core, v ++ [closing], by simp, ?_, ?_, hcore⟩, fun x hx => ?_⟩
  · exact List.forall_mem_cons.mpr ⟨ho, hu⟩
  · exact List.forall_mem_append.mpr ⟨hv, List.forall_mem_singleton.mpr hc⟩
  · exact (hparts x hx).mono ⟨[opening], [closing], by simp⟩

/-- Where its tokens are in order, the expressions in a word are read in it. -/
def Slices {s : Phrase} {w : List Token} (d : Derivation s w) : Prop :=
  InOrder w → s.Sliced w d.meaning

section Primary

variable {u v w : List Token} {opening comma closing keyword : Token}

/-- The brackets of a grouping stand outside the place of what they enclose. -/
theorem slices_grouping (ho : opening.kind = .leftParen) (hc : closing.kind = .rightParen)
    {inner : Derivation .expression w} (ih : inner.Slices) :
    (grouping opening closing ho hc inner).Slices :=
  fun h => sliced_grouping ho hc (ih (h.mono ⟨[opening], [closing], by simp⟩))

theorem slices_tuple (ho : opening.kind = .leftParen) (hm : comma.kind = .comma)
    (hc : closing.kind = .rightParen) {first : Derivation .expression u}
    {others : Derivation .expressions v} (ihf : first.Slices) (iho : others.Slices) :
    (tuple opening comma closing ho hm hc first others).Slices := by
  intro h
  have hfirst := ihf (h.mono ⟨[opening], comma :: (v ++ [closing]), by simp⟩)
  have hothers := iho (h.mono ⟨opening :: (u ++ [comma]), [closing], by simp⟩)
  have hword : opening :: (u ++ comma :: (v ++ [closing])) =
      opening :: ((u ++ comma :: v) ++ [closing]) := by simp
  refine Expr.sliced_whole (core_between rfl (by rw [hc]; decide) hword h)
    (.tuple opening comma closing ho hm hc first others) rfl fun x hx => ?_
  rcases List.mem_cons.mp hx with rfl | hx
  · exact .inl rfl
  · rw [Expr.partsOfList_eq, List.flatMap_cons] at hx
    refine .inr ((List.mem_append.mp hx).elim (fun hx => ?_) fun hx => ?_)
    · exact (hfirst.parts x hx).mono ⟨[opening], comma :: (v ++ [closing]), by simp⟩
    · obtain ⟨e, he, hx⟩ := List.mem_flatMap.mp hx
      exact (hothers e he x hx).mono ⟨opening :: (u ++ [comma]), [closing], by simp⟩

/-- A match runs from its keyword to its closing brace, and it stands by itself. -/
theorem slices_matching (hk : keyword.is .keyword "match" = true) (ho : opening.kind = .leftBrace)
    (hc : closing.kind = .rightBrace) {params : Derivation .binders u}
    {clauses : Derivation .clauses v} (ih : clauses.Slices) :
    (matching keyword opening closing hk ho hc params clauses).Slices := by
  intro h
  have hclauses := ih (h.mono ⟨keyword :: (u ++ [opening]), [closing], by simp⟩)
  have hword : keyword :: (u ++ opening :: (v ++ [closing])) =
      keyword :: ((u ++ opening :: v) ++ [closing]) := by simp
  refine Expr.sliced_whole (core_between rfl (by rw [hc]; decide) hword h)
    (.matching keyword opening closing hk ho hc params clauses) rfl fun x hx => ?_
  rcases List.mem_cons.mp hx with rfl | hx
  · exact .inl rfl
  · rw [Clause.partsOfList_eq] at hx
    obtain ⟨c, hc, hx⟩ := List.mem_flatMap.mp hx
    exact .inr ((hclauses c hc x hx).mono ⟨keyword :: (u ++ [opening]), [closing], by simp⟩)

end Primary

section Operations

variable {u v w : List Token} {n : Nat}

/-- A call runs from its callee to its closing bracket. -/
theorem slices_called {callee : Derivation .primary u} {others : Derivation .calls v}
    (ihc : callee.Slices) (iho : others.Slices) : (called callee others).Slices := by
  intro h
  have hcallee := ihc (h.mono ⟨[], v, rfl⟩)
  have hcalled : Expr.Sliced callee.meaning (u ++ []) := by
    rw [List.append_nil]
    exact hcallee
  exact iho (h.mono ⟨u, [], by simp⟩) u [] callee .noCall h hcalled

theorem slices_operations {first : Derivation (.level n) u} {others : Derivation (.chain n) v}
    (ihf : first.Slices) (iho : others.Slices) : (operations first others).Slices := by
  intro h
  obtain ⟨left, hleft⟩ := first.exists_level (Nat.le_succ n)
  have hfirst : Expr.Sliced first.meaning u := ihf (h.mono ⟨[], v, rfl⟩)
  rw [← hleft] at hfirst
  have hmore := iho (h.mono ⟨u, [], by simp⟩) u left h hfirst
  rwa [hleft] at hmore

theorem slices_noOperation : (noOperation (n := n)).Slices := by
  intro _ u left _ hleft
  rwa [List.append_nil]

theorem slices_operation {t : Token} {op : BinaryOp} (ht : t.binaryOp? = some op)
    (level : op.precedence = n + 1) {operand : Derivation (.level n) u}
    {others : Derivation (.chain n) v} (ih : operand.Slices) (iho : others.Slices) :
    (operation t op ht level operand others).Slices := by
  intro h w left horder hleft
  have hoperand := ih (h.mono ⟨[t], v, by simp⟩)
  have hfront : InOrder (w ++ t :: u) := horder.mono ⟨[], v, by simp⟩
  have hjoined := sliced_joined ht level left operand hfront hleft hoperand
  obtain ⟨d, hd⟩ := exists_joined ht level left operand
  rw [← hd] at hjoined
  have hword : w ++ t :: (u ++ v) = w ++ t :: u ++ v := by simp
  rw [hword] at horder ⊢
  have hmore := iho (h.mono ⟨t :: u, [], by simp⟩) _ d horder hjoined
  rwa [hd] at hmore

end Operations

section Arguments

variable {u v w : List Token} {opening comma closing : Token}

theorem slices_noCall : noCall.Slices := by
  intro _ u v callee calls _ hcalled
  simpa [meaning] using hcalled

theorem slices_call {args : Derivation .arguments u} {others : Derivation .calls v}
    (ih : args.Slices) (iho : others.Slices) : (call args others).Slices := by
  intro h a b callee calls horder hcalled
  obtain ⟨hclosing, hargs⟩ := ih (h.mono ⟨[], v, rfl⟩)
  have hfront : InOrder (a ++ (b ++ u)) := horder.mono ⟨[], v, by simp⟩
  have hcall := sliced_call callee calls args hfront hcalled hclosing hargs
  obtain ⟨more, hmore⟩ := calls_append args calls rfl
  rw [← hmore] at hcall
  rw [← List.append_assoc b] at horder ⊢
  have hlater := iho (h.mono ⟨u, [], by simp⟩) a (b ++ u) callee more horder hcall
  rw [hmore, List.append_assoc] at hlater
  exact hlater

theorem slices_someArguments (ho : opening.kind = .leftParen) (hc : closing.kind = .rightParen)
    {args : Derivation .expressions w} (ih : args.Slices) :
    (someArguments opening closing ho hc args).Slices := by
  intro h
  refine ⟨⟨opening :: w, closing, rfl, rfl, hc⟩, fun e he x hx => ?_⟩
  exact (ih (h.mono ⟨[opening], [closing], by simp⟩) e he x hx).mono
    ⟨[opening], [closing], by simp⟩

theorem slices_nextExpression (hm : comma.kind = .comma) {e : Derivation .expression u}
    {others : Derivation .expressions v} (ih : e.Slices) (iho : others.Slices) :
    (nextExpression comma hm e others).Slices := by
  intro h
  refine List.forall_mem_cons.mpr ⟨fun x hx => ?_, fun e he x hx => ?_⟩
  · exact ((ih (h.mono ⟨[], comma :: v, rfl⟩)).parts x hx).mono ⟨[], comma :: v, rfl⟩
  · exact (iho (h.mono ⟨u ++ [comma], [], by simp⟩) e he x hx).mono ⟨u ++ [comma], [], by simp⟩

end Arguments

section Clauses

variable {u v w : List Token} {keyword name arrow stop : Token}

/-- An expression in the middle of a word is read in it, and so is all that is in the expression. -/
theorem readIn_of_slices {e : Derivation .expression w} (ih : e.Slices)
    (h : InOrder (u ++ (w ++ v))) : ∀ x ∈ Expr.parts e.meaning, x.ReadIn (u ++ (w ++ v)) :=
  fun x hx => ((ih h.middle).parts x hx).mono ⟨u, v, by simp⟩

theorem slices_blank (hk : keyword.is .keyword "when" = true)
    (hn : name.is .identifier "_" = true) (ha : arrow.kind = .arrow) (hs : stop.kind = .semicolon)
    {result : Derivation .expression w} (ih : result.Slices) :
    (blank keyword name arrow stop hk hn ha hs result).Slices :=
  fun h => readIn_of_slices (u := [keyword, name, arrow]) ih h

theorem slices_otherwise (hk : keyword.is .keyword "otherwise" = true) (ha : arrow.kind = .arrow)
    (hs : stop.kind = .semicolon) {result : Derivation .expression w} (ih : result.Slices) :
    (otherwise keyword arrow stop hk ha hs result).Slices :=
  fun h => readIn_of_slices (u := [keyword, arrow]) ih h

/-- The condition of a clause is a part of its own, beside the result. -/
theorem slices_guarded (hk : keyword.is .keyword "when" = true) (ha : arrow.kind = .arrow)
    (hs : stop.kind = .semicolon) {condition : Derivation .expression u}
    (named : Token.leadsBlank u = false) {result : Derivation .expression v}
    (ihc : condition.Slices) (ihr : result.Slices) :
    (guarded keyword arrow stop hk ha hs condition named result).Slices := by
  intro h x hx
  rcases List.mem_append.mp hx with hx | hx
  · exact readIn_of_slices (u := [keyword]) ihc h x hx
  · have hword : keyword :: (u ++ arrow :: (v ++ [stop])) =
        (keyword :: (u ++ [arrow])) ++ (v ++ [stop]) := by simp
    rw [hword] at h ⊢
    exact readIn_of_slices ihr h x hx

theorem slices_remark {t : Token} (ht : t.kind = .comment) {others : Derivation .clauses w}
    (ih : others.Slices) : (remark t ht others).Slices := by
  intro h c hc x hx
  exact (ih (h.mono ⟨[t], [], by simp⟩) c hc x hx).mono ⟨[t], [], by simp⟩

theorem slices_nextClause {first : Derivation .clause u} {others : Derivation .clauses v}
    (ihf : first.Slices) (iho : others.Slices) : (nextClause first others).Slices := by
  intro h
  refine List.forall_mem_cons.mpr ⟨fun x hx => ?_, fun c hc x hx => ?_⟩
  · exact (ihf (h.mono ⟨[], v, rfl⟩) x hx).mono ⟨[], v, rfl⟩
  · exact (iho (h.mono ⟨u, [], by simp⟩) c hc x hx).mono ⟨u, [], by simp⟩

end Clauses

section Statements

variable {u v w : List Token} {opening closing type name assign stop : Token}

theorem slices_sugared (ha : assign.kind = .assign) {params : Derivation .parameters u}
    {result : Derivation .expression v} (ih : result.Slices) :
    (sugared assign ha params result).Slices := by
  intro h x hx
  rw [meaning, Match.nodes_always] at hx
  exact ((ih (h.mono ⟨u ++ [assign], [], by simp⟩)).parts x hx).mono ⟨u ++ [assign], [], by simp⟩

theorem slices_plain (ha : assign.kind = .assign) {result : Derivation .expression w}
    (ih : result.Slices) : (plain assign ha result).Slices := by
  intro h x hx
  have hx := Match.nodes_ofExpr_subset _ hx
  exact ((ih (h.mono ⟨[assign], [], by simp⟩)).parts x hx).mono ⟨[assign], [], by simp⟩

theorem slices_comment {t : Token} (ht : t.kind = .comment) : (comment t ht).Slices :=
  fun _ => ⟨⟨[], [t], rfl, by simp, .single t, fun _ => rfl⟩, List.forall_mem_nil _⟩

theorem slices_function (ho : opening.is .compareOp "<" = true)
    (hc : closing.is .compareOp ">" = true) (hn : name.kind = .identifier)
    (hs : stop.kind = .semicolon) {types : Derivation .types u} {body : Derivation .body v}
    (ih : body.Slices) : (function opening closing name stop ho hc hn hs types body).Slices := by
  intro h
  have hword : opening :: (u ++ closing :: name :: (v ++ [stop])) =
      opening :: ((u ++ closing :: name :: v) ++ [stop]) := by simp
  refine ⟨⟨[], _, rfl, by simp, runsOver_between hword h, fun _ => rfl⟩, fun x hx => ?_⟩
  exact (ih (h.mono ⟨opening :: (u ++ [closing, name]), [stop], by simp⟩) x hx).mono
    ⟨opening :: (u ++ [closing, name]), [stop], by simp⟩

theorem slices_define (ht : type.kind = .typeName) (hn : name.kind = .identifier)
    (ha : assign.kind = .assign) (hs : stop.kind = .semicolon) {init : Derivation .expression w}
    (ih : init.Slices) : (define type name assign stop ht hn ha hs init).Slices := by
  intro h
  have hword : type :: name :: assign :: (w ++ [stop]) =
      type :: ((name :: assign :: w) ++ [stop]) := by simp
  refine ⟨⟨[], _, rfl, by simp, runsOver_between hword h, fun _ => rfl⟩, ?_⟩
  exact readIn_of_slices (u := [type, name, assign]) ih h

/-- The parentheses in front of an expression are not under the span of its statement. -/
theorem slices_expressionStatement (hs : stop.kind = .semicolon) {e : Derivation .expression w}
    (ih : e.Slices) : (expression stop hs e).Slices := by
  intro h
  obtain ⟨⟨u, core, v, rfl, hu, hv, hcore⟩, hparts⟩ := ih (h.mono ⟨[], [stop], rfl⟩)
  have hword : u ++ (core ++ v) ++ [stop] = u ++ (core ++ (v ++ [stop])) := by simp
  refine ⟨⟨u, core ++ (v ++ [stop]), hword, hu, ?_, fun hne => absurd rfl (hne _ _)⟩,
    fun x hx => (hparts x hx).mono ⟨[], [stop], rfl⟩⟩
  exact hcore.span.merge (.single stop) (h.mono ⟨u, [], by simp⟩)

end Statements

/-- By the rules each expression is read in the word that it is read from. -/
theorem sliced {s : Phrase} {w : List Token} (d : Derivation s w) : d.Slices := by
  induction d with
  | number t ht finite =>
      exact fun _ => sliced_atom ht (by decide) rfl (.number t ht finite) rfl rfl
  | string t ht => exact fun _ => sliced_atom ht (by decide) rfl (.string t ht) rfl rfl
  | boolean t ht => exact fun _ => sliced_atom ht (by decide) rfl (.boolean t ht) rfl rfl
  | ident t ht => exact fun _ => sliced_atom ht (by decide) rfl (.ident t ht) rfl rfl
  | grouping _ _ ho hc _ ih => exact slices_grouping ho hc ih
  | tuple _ _ _ ho hm hc _ _ ih ihs => exact slices_tuple ho hm hc ih ihs
  | matching _ _ _ hk ho hc _ _ _ ih => exact slices_matching hk ho hc ih
  | called _ _ ih ihs => exact slices_called ih ihs
  | unary t _ ht operand ih =>
      exact fun h => sliced_unary ht operand h (ih (h.mono ⟨[t], [], by simp⟩))
  | operations _ _ ih ihs => exact slices_operations ih ihs
  | noOperation => exact slices_noOperation
  | operation _ _ ht level _ _ ih ihs => exact slices_operation ht level ih ihs
  | noCall => exact slices_noCall
  | call _ _ ih ihs => exact slices_call ih ihs
  | noArguments opening closing _ hc =>
      exact fun _ => ⟨⟨[opening], closing, rfl, rfl, hc⟩, List.forall_mem_nil _⟩
  | someArguments _ _ ho hc _ ih => exact slices_someArguments ho hc ih
  | lastExpression _ ih => exact fun h => List.forall_mem_singleton.mpr (ih h).parts
  | nextExpression _ hm _ _ ih ihs => exact slices_nextExpression hm ih ihs
  | lastName | nextName | noParameters | someParameters | enclosedBinders | oneBinder | lastType
  | nextType | noStatement | nextStatement => exact fun _ => trivial
  | blank _ _ _ _ hk hn ha hs _ ih => exact slices_blank hk hn ha hs ih
  | otherwise _ _ _ hk ha hs _ ih => exact slices_otherwise hk ha hs ih
  | guarded _ _ _ hk ha hs _ named _ ihc ihr => exact slices_guarded hk ha hs named ihc ihr
  | noClause => exact fun _ => List.forall_mem_nil _
  | remark _ ht _ ih => exact slices_remark ht ih
  | nextClause _ _ ih ihs => exact slices_nextClause ih ihs
  | sugared _ ha _ _ _ ih => exact slices_sugared ha ih
  | plain _ ha _ ih => exact slices_plain ha ih
  | comment _ ht => exact slices_comment ht
  | function _ _ _ _ ho hc hn hs _ _ _ ih => exact slices_function ho hc hn hs ih
  | define _ _ _ _ ht hn ha hs _ ih => exact slices_define ht hn ha hs ih
  | expression _ hs _ ih => exact slices_expressionStatement hs ih

end Derivation

end Clausal
