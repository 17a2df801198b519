import Clausal.Proofs.Grammar.Uniqueness
import Clausal.Proofs.Tree.Printing

/-!
Reading back what was printed. The lexemes of a well-formed tree derive as the phrase of its
place, whatever spans the tokens get, and what they derive to is the tree again. The level of the
phrase is the precedence of the outermost operation, which is what decides where the printer
needs parentheses.
-/

namespace Clausal

open Token Token.Shape

/-- Every word of these shapes derives as the phrase, with a meaning of this property. -/
def Derives (s : Phrase) (ls : List Shape) (P : s.Meaning → Prop) : Prop :=
  ∀ ts : List Token, ts.map shape = ls → ∃ d : Derivation s ts, P d.meaning

/-- The tightest level at which the expression derives without parentheses. -/
def Expr.rank (e : Expr) : Nat := e.level?.getD 0

namespace Token

/-- Tokens that look like one lexeme are one token. -/
theorem map_shape_eq_single {ts : List Token} {kind : Kind} {text : String}
    (h : ts.map shape = [(kind, text)]) : ∃ t, ts = [t] ∧ t.kind = kind ∧ t.text = text := by
  obtain ⟨t, us, rfl, hkind, htext, hus⟩ := map_shape_eq_cons h
  obtain rfl := List.map_eq_nil_iff.mp hus
  exact ⟨t, rfl, hkind, htext⟩

theorem map_shape_eq_append_single {ts : List Token} {ls : List Shape} {kind : Kind}
    {text : String} (h : ts.map shape = ls ++ [(kind, text)]) :
    ∃ w t, ts = w ++ [t] ∧ t.kind = kind ∧ w.map shape = ls := by
  obtain ⟨w, us, rfl, hw, hus⟩ := List.map_eq_append_iff.mp h
  obtain ⟨t, rfl, hkind, -⟩ := map_shape_eq_single hus
  exact ⟨w, t, rfl, hkind, hw⟩

theorem map_shape_eq_enclosed {ts : List Token} {ls : List Shape}
    (h : ts.map shape = enclosed true ls) :
    ∃ opening w closing, ts = opening :: (w ++ [closing]) ∧ opening.kind = .leftParen ∧
      closing.kind = .rightParen ∧ w.map shape = ls := by
  obtain ⟨opening, us, rfl, ho, -, hus⟩ := map_shape_eq_cons h
  obtain ⟨w, closing, rfl, hc, hw⟩ := map_shape_eq_append_single hus
  exact ⟨opening, w, closing, rfl, ho, hc, hw⟩

end Token

namespace Derives

variable {ls : List Shape} {P : Expr → Prop}

/-- What stands at one level of precedence stands at each looser one. -/
theorem lift {m n : Nat} (h : Derives (.level m) ls P) (hle : m ≤ n) :
    Derives (.level n) ls P := by
  induction hle with
  | refl => exact h
  | step _ ih =>
      intro ts hts
      obtain ⟨d, hd⟩ := ih ts hts
      rw [← List.append_nil ts]
      exact ⟨.operations d .noOperation, hd⟩

theorem grouping (h : Derives .expression ls P) : Derives .primary (enclosed true ls) P := by
  intro ts hts
  obtain ⟨opening, w, closing, rfl, ho, hc, hw⟩ := map_shape_eq_enclosed hts
  obtain ⟨d, hd⟩ := h w hw
  exact ⟨.grouping opening closing ho hc d, hd⟩

theorem called (h : Derives .primary ls P) : Derives (.level 0) ls P := by
  intro ts hts
  obtain ⟨d, hd⟩ := h ts hts
  rw [← List.append_nil ts]
  exact ⟨.called d .noCall, hd⟩

/-- An operand that is enclosed where its level is too high for its place. -/
theorem enclosed {m n : Nat} {needed : Bool} (h : Derives (.level m) ls P)
    (hm : m ≤ BinaryOp.loosest) (hn : needed = false → m ≤ n) :
    Derives (.level n) (Shape.enclosed needed ls) P := by
  cases needed with
  | true => exact (h.lift hm).grouping.called.lift (Nat.zero_le n)
  | false => exact h.lift (hn rfl)

end Derives

namespace Derivation

/-- A chain goes on with one more operation of its level. -/
theorem chain_append {n : Nat} {t : Token} {op : BinaryOp} (ht : t.binaryOp? = some op)
    (level : op.precedence = n + 1) {v : List Token} (operand : Derivation (.level n) v) :
    {u : List Token} → (d : Derivation (.chain n) u) → {w : List Token} → w = u ++ t :: v →
      ∃ d' : Derivation (.chain n) w, d'.meaning = d.meaning ++ [(op, operand.meaning)]
  | _, .noOperation, w, hw => by
      obtain rfl : w = t :: (v ++ []) := by simpa using hw
      exact ⟨.operation t op ht level operand .noOperation, rfl⟩
  | _, .operation t' op' ht' level' operand' (v := v') others, w, hw => by
      obtain ⟨d', hd'⟩ := chain_append ht level operand others (w := v' ++ t :: v) rfl
      obtain rfl := hw.trans (List.append_assoc (t' :: _) v' (t :: v))
      exact ⟨.operation t' op' ht' level' operand' d', congrArg ((op', operand'.meaning) :: ·) hd'⟩

/-- Calls go on with one more argument list. -/
theorem calls_append {v : List Token} (args : Derivation .arguments v) :
    {u : List Token} → (d : Derivation .calls u) → {w : List Token} → w = u ++ v →
      ∃ d' : Derivation .calls w, d'.meaning = d.meaning ++ [args.meaning]
  | _, .noCall, w, hw => by
      obtain rfl : w = v ++ [] := by simpa using hw
      exact ⟨.call args .noCall, rfl⟩
  | _, .call args' (v := v') others, w, hw => by
      obtain ⟨d', hd'⟩ := calls_append args others (w := v' ++ v) rfl
      obtain rfl := hw.trans (List.append_assoc _ v' v)
      exact ⟨.call args' d', congrArg (args'.meaning :: ·) hd'⟩

end Derivation

/-- A token that is written as an operator is read as it. -/
theorem Token.binaryOp?_of_shape {t : Token} {op : BinaryOp} (hkind : t.kind = op.tokenKind)
    (htext : t.text = op.symbol) : t.binaryOp? = some op := by
  unfold Token.binaryOp?
  rw [hkind, htext]
  cases op <;> rfl

theorem Token.unaryOp?_of_shape {t : Token} {op : UnaryOp} (hkind : t.kind = op.tokenKind)
    (htext : t.text = op.symbol) : t.unaryOp? = some op := by
  unfold Token.unaryOp? Token.is
  rw [hkind, htext]
  cases op <;> rfl

namespace Derives

/-- An operation derives at its own level: the operations of that level on its left are the chain
that it ends. -/
theorem binary {op : BinaryOp} {n : Nat} {ls ms : List Shape} {a b : Expr}
    (level : op.precedence = n + 1)
    (ha : Derives (.level (n + 1)) ls fun m : Expr => m.bare = a.bare)
    (hb : Derives (.level n) ms fun m : Expr => m.bare = b.bare) (s : Span) :
    Derives (.level (n + 1)) (ls ++ (op.tokenKind, op.symbol) :: ms)
      fun m : Expr => m.bare = (Expr.binary op a b s).bare := by
  intro ts hts
  obtain ⟨u, us, rfl, hu, hus⟩ := List.map_eq_append_iff.mp hts
  obtain ⟨t, v, rfl, hkind, htext, hv⟩ := map_shape_eq_cons hus
  obtain ⟨left, hleft⟩ := ha u hu
  obtain ⟨right, hright⟩ := hb v hv
  cases left with
  | operations first others =>
      obtain ⟨chain, hchain⟩ :=
        Derivation.chain_append (binaryOp?_of_shape hkind htext) level right others rfl
      rw [List.append_assoc]
      refine ⟨.operations first chain, ?_⟩
      simp only [Derivation.meaning, Derivation.applyChain] at hleft ⊢
      rw [hchain, List.foldl_append, List.foldl_cons, List.foldl_nil, Expr.joined,
        Expr.bare_binary, Expr.bare_binary, hleft, hright]

theorem unary {op : UnaryOp} {ls : List Shape} {a : Expr}
    (ha : Derives (.level 0) ls fun m : Expr => m.bare = a.bare) (s : Span) :
    Derives (.level 0) ((op.tokenKind, op.symbol) :: ls)
      fun m : Expr => m.bare = (Expr.unary op a s).bare := by
  intro ts hts
  obtain ⟨t, w, rfl, hkind, htext, hw⟩ := map_shape_eq_cons hts
  obtain ⟨operand, hoperand⟩ := ha w hw
  refine ⟨.unary t op (unaryOp?_of_shape hkind htext) operand, ?_⟩
  simp [Derivation.meaning, hoperand]

/-- One or more expressions with commas between them. -/
theorem expressions {es : List Expr} (hne : es ≠ [])
    (h : ∀ e ∈ es, Derives .expression e.lexemes fun m : Expr => m.bare = e.bare) :
    Derives .expressions (separated (es.map (·.lexemes)))
      fun ms : List Expr => ms.map (·.bare) = es.map (·.bare) := by
  induction es with
  | nil => contradiction
  | cons e es ih =>
      obtain ⟨he, hes⟩ := List.forall_mem_cons.mp h
      cases es with
      | nil =>
          intro ts hts
          obtain ⟨d, hd⟩ := he ts hts
          exact ⟨.lastExpression d, congrArg ([·]) hd⟩
      | cons e' es =>
          intro ts hts
          obtain ⟨u, us, rfl, hu, hus⟩ := List.map_eq_append_iff.mp hts
          obtain ⟨comma, v, rfl, hm, -, hv⟩ := map_shape_eq_cons hus
          obtain ⟨d, hd⟩ := he u hu
          obtain ⟨others, hothers⟩ := ih (by simp) hes v hv
          refine ⟨.nextExpression comma hm d others, ?_⟩
          simp only [Derivation.meaning, List.map_cons, hd]
          rw [hothers, List.map_cons]

theorem arguments {es : List Expr}
    (h : ∀ e ∈ es, Derives .expression e.lexemes fun m : Expr => m.bare = e.bare) :
    Derives .arguments (Shape.enclosed true (separated (es.map (·.lexemes))))
      fun m : List Expr × Span => m.1.map (·.bare) = es.map (·.bare) := by
  intro ts hts
  obtain ⟨opening, w, closing, rfl, ho, hc, hw⟩ := map_shape_eq_enclosed hts
  cases es with
  | nil =>
      obtain rfl := List.map_eq_nil_iff.mp hw
      exact ⟨.noArguments opening closing ho hc, rfl⟩
  | cons e es =>
      obtain ⟨args, hargs⟩ := expressions (by simp) h w hw
      exact ⟨.someArguments opening closing ho hc args, hargs⟩

theorem tuple {es : List Expr} (hlen : 2 ≤ es.length)
    (h : ∀ e ∈ es, Derives .expression e.lexemes fun m : Expr => m.bare = e.bare) (s : Span) :
    Derives .primary (Shape.enclosed true (separated (es.map (·.lexemes))))
      fun m : Expr => m.bare = (Expr.tuple es s).bare := by
  intro ts hts
  obtain ⟨opening, w, closing, rfl, ho, hc, hw⟩ := map_shape_eq_enclosed hts
  match es, hlen, h with
  | e :: e' :: es, _, h =>
      obtain ⟨he, hes⟩ := List.forall_mem_cons.mp h
      obtain ⟨u, us, rfl, hu, hus⟩ := List.map_eq_append_iff.mp hw
      obtain ⟨comma, v, rfl, hm, -, hv⟩ := map_shape_eq_cons hus
      obtain ⟨first, hfirst⟩ := he u hu
      obtain ⟨others, hothers⟩ := expressions (by simp) hes v hv
      rw [List.append_assoc, List.cons_append]
      refine ⟨.tuple opening comma closing ho hm hc first others, ?_⟩
      simp only [Derivation.meaning, Expr.bare_tuple, List.map_cons, hfirst]
      rw [hothers, List.map_cons]

theorem names {ps : List Ident} (hne : ps ≠ []) :
    Derives .names (separated (ps.map fun p => [(.identifier, p.name)]))
      fun ms : List Ident => ms.map (·.bare) = ps.map (·.bare) := by
  induction ps with
  | nil => contradiction
  | cons p ps ih =>
      cases ps with
      | nil =>
          intro ts hts
          obtain ⟨t, rfl, ht, htext⟩ := map_shape_eq_single hts
          exact ⟨.lastName t ht, congrArg ([·]) (Ident.bare_eq_of_name htext)⟩
      | cons p' ps =>
          intro ts hts
          obtain ⟨t, us, rfl, ht, htext, hus⟩ := map_shape_eq_cons hts
          obtain ⟨comma, w, rfl, hm, -, hw⟩ := map_shape_eq_cons hus
          obtain ⟨others, hothers⟩ := ih (by simp) w hw
          refine ⟨.nextName t comma ht hm others, ?_⟩
          simp only [Derivation.meaning, List.map_cons]
          rw [hothers, List.map_cons]
          exact congrArg (· :: _) (Ident.bare_eq_of_name htext)

/-- The names in front of a match are printed as one name, or in brackets. -/
theorem binders (params : List Ident) :
    Derives .binders (Ident.lexemes params)
      fun ms : List Ident => ms.map (·.bare) = params.map (·.bare) := by
  unfold Ident.lexemes
  split
  · next p =>
    intro ts hts
    obtain ⟨t, rfl, ht, htext⟩ := map_shape_eq_single hts
    exact ⟨.oneBinder t ht, congrArg ([·]) (Ident.bare_eq_of_name htext)⟩
  · intro ts hts
    obtain ⟨opening, w, closing, rfl, ho, hc, hw⟩ := map_shape_eq_enclosed hts
    cases params with
    | nil =>
        obtain rfl := List.map_eq_nil_iff.mp hw
        exact ⟨.enclosedBinders (.noParameters opening closing ho hc), rfl⟩
    | cons p ps =>
        obtain ⟨d, hd⟩ := names (by simp) w hw
        exact ⟨.enclosedBinders (.someParameters opening closing ho hc d), hd⟩

/-- A match is printed with its names and its clauses, and it derives where they do. -/
theorem matching {params : List Ident} {clauses : List Clause}
    (hclauses : ∀ c ∈ clauses, Derives .clause c.lexemes fun m : Clause => m.bare = c.bare)
    (s : Span) :
    Derives .primary (Expr.matching params clauses s).lexemes
      fun m : Expr => m.bare = (Expr.matching params clauses s).bare := by
  have hmore : Derives .clauses (clauses.flatMap (·.lexemes))
      fun ms : List Clause => ms.map (·.bare) = clauses.map (·.bare) := by
    clear s
    induction clauses with
    | nil =>
        intro ts hts
        obtain rfl := List.map_eq_nil_iff.mp hts
        exact ⟨.noClause, rfl⟩
    | cons c cs ih =>
        intro ts hts
        obtain ⟨hc, hcs⟩ := List.forall_mem_cons.mp hclauses
        obtain ⟨u, v, rfl, hu, hv⟩ := List.map_eq_append_iff.mp hts
        obtain ⟨first, hfirst⟩ := hc u hu
        obtain ⟨others, hothers⟩ := ih hcs v hv
        refine ⟨.nextClause first others, ?_⟩
        simp only [Derivation.meaning, List.map_cons, hfirst]
        rw [hothers]
  intro ts hts
  rw [Expr.lexemes, Clause.lexemesOfList_eq] at hts
  obtain ⟨keyword, us, rfl, hkind, htext, hus⟩ := map_shape_eq_cons hts
  obtain ⟨u, vs, rfl, hu, hvs⟩ := List.map_eq_append_iff.mp hus
  obtain ⟨opening, v, rfl, ho, -, hv⟩ := map_shape_eq_cons hvs
  obtain ⟨v, closing, rfl, hc, hv⟩ := map_shape_eq_append_single hv
  obtain ⟨first, hfirst⟩ := binders params u hu
  obtain ⟨others, hothers⟩ := hmore v hv
  have hkeyword : keyword.is .keyword "match" = true := by simp [Token.is, hkind, htext]
  refine ⟨.matching keyword opening closing hkeyword ho hc first others, ?_⟩
  simp only [Derivation.meaning, Expr.bare_matching]
  rw [hfirst, hothers]

theorem catchAll {body : Expr}
    (hbody : Derives .expression body.lexemes fun m : Expr => m.bare = body.bare) (s : Span) :
    Derives .clause (Clause.catchAll body s).lexemes
      fun m : Clause => m.bare = (Clause.catchAll body s).bare := by
  intro ts hts
  obtain ⟨keyword, us, rfl, hkind, htext, hus⟩ := map_shape_eq_cons hts
  obtain ⟨arrow, vs, rfl, ha, -, hvs⟩ := map_shape_eq_cons hus
  obtain ⟨w, stop, rfl, hstop, hw⟩ := map_shape_eq_append_single hvs
  obtain ⟨result, hresult⟩ := hbody w hw
  have hkeyword : keyword.is .keyword "otherwise" = true := by simp [Token.is, hkind, htext]
  refine ⟨.otherwise keyword arrow stop hkeyword ha hstop result, ?_⟩
  simp only [Derivation.meaning, Clause.bare_catchAll, hresult]

/-- A condition that cannot be taken for the blank name is a condition again. -/
theorem guarded {condition body : Expr}
    (hcondition : Derives .expression condition.lexemes fun m : Expr => m.bare = condition.bare)
    (hclear : ∀ ts : List Token, ts.map shape = condition.lexemes → leadsBlank ts = false)
    (hbody : Derives .expression body.lexemes fun m : Expr => m.bare = body.bare) (s : Span) :
    Derives .clause (Clause.guarded condition body s).lexemes
      fun m : Clause => m.bare = (Clause.guarded condition body s).bare := by
  intro ts hts
  obtain ⟨keyword, us, rfl, hkind, htext, hus⟩ := map_shape_eq_cons hts
  obtain ⟨u, vs, rfl, hu, hvs⟩ := List.map_eq_append_iff.mp hus
  obtain ⟨arrow, v, rfl, ha, -, hv⟩ := map_shape_eq_cons hvs
  obtain ⟨v, stop, rfl, hstop, hv⟩ := map_shape_eq_append_single hv
  obtain ⟨guard, hguard⟩ := hcondition u hu
  obtain ⟨result, hresult⟩ := hbody v hv
  have hkeyword : keyword.is .keyword "when" = true := by simp [Token.is, hkind, htext]
  refine ⟨.guarded keyword arrow stop hkeyword ha hstop guard (hclear u hu) result, ?_⟩
  simp only [Derivation.meaning, Clause.bare_guarded, hguard, hresult]

end Derives

/-- Every word of these shapes is a primary with calls after it, to which another call can be
added. -/
def Applies (ls : List Shape) (P : Expr → Prop) : Prop :=
  ∀ ts : List Token, ts.map shape = ls →
    ∃ u v, ∃ callee : Derivation .primary u, ∃ calls : Derivation .calls v,
      ts = u ++ v ∧ P (Derivation.applyCalls callee.meaning calls.meaning)

namespace Applies

variable {ls : List Shape} {P : Expr → Prop}

theorem of_primary (h : Derives .primary ls P) : Applies ls P := by
  intro ts hts
  obtain ⟨d, hd⟩ := h ts hts
  exact ⟨ts, [], d, .noCall, (List.append_nil ts).symm, hd⟩

theorem derives (h : Applies ls P) : Derives (.level 0) ls P := by
  intro ts hts
  obtain ⟨u, v, callee, calls, rfl, hP⟩ := h ts hts
  exact ⟨.called callee calls, hP⟩

theorem call {f : Expr} {args : List Expr} (hf : Applies ls fun m => m.bare = f.bare)
    (hargs : ∀ e ∈ args, Derives .expression e.lexemes fun m : Expr => m.bare = e.bare)
    (s : Span) :
    Applies (ls ++ enclosed true (separated (args.map (·.lexemes))))
      fun m => m.bare = (Expr.call f args s).bare := by
  intro ts hts
  obtain ⟨us, v, rfl, hus, hv⟩ := List.map_eq_append_iff.mp hts
  obtain ⟨u, w, callee, calls, rfl, hcallee⟩ := hf us hus
  obtain ⟨more, hmore⟩ := Derives.arguments hargs v hv
  obtain ⟨calls', hcalls'⟩ := Derivation.calls_append more calls rfl
  refine ⟨u, w ++ v, callee, calls', List.append_assoc u w v, ?_⟩
  simp only [Derivation.applyCalls] at hcallee ⊢
  rw [hcalls', List.foldl_append, List.foldl_cons, List.foldl_nil, Expr.bare_call, Expr.bare_call,
    hcallee, hmore]

end Applies

/-- Whether the printed words of an expression lead with the blank name is told by the
expression. -/
theorem Expr.WellFormed.leadsBlank_eq {e : Expr} (h : e.WellFormed) {ts : List Token}
    (hts : ts.map shape = e.lexemes) : Token.leadsBlank ts = e.opensBlank := by
  rw [h.opensBlank_eq, ← hts]
  cases ts <;> rfl

namespace Expr

theorem rank_le_loosest (e : Expr) : e.rank ≤ BinaryOp.loosest := by
  cases e with
  | binary op a b s => exact op.precedence_le_loosest
  | _ => exact Nat.zero_le _

/-- What is not enclosed binds at least as tightly as its place asks for. -/
theorem rank_le_of_isBinary {e : Expr} {test : Nat → Bool} {n : Nat}
    (h : e.isBinary test = false) (htest : ∀ k, n < k → test k = true) : e.rank ≤ n := by
  rw [Expr.isBinary] at h
  rw [Expr.rank]
  cases hlevel : e.level? with
  | none => exact Nat.zero_le n
  | some k =>
      simp only [hlevel, Option.any_some] at h
      apply Nat.le_of_not_lt
      intro hk
      simp [htest k hk] at h

/-- How an expression is read back: at its level, and as something that can be called unless it
is an operation. -/
structure Reparses (e : Expr) : Prop where
  level : Derives (.level e.rank) e.lexemes fun m : Expr => m.bare = e.bare
  applies : e.isOperation = false → Applies e.lexemes fun m => m.bare = e.bare

namespace Reparses

variable {e : Expr}

theorem of_applies (h : Applies e.lexemes fun m => m.bare = e.bare) : e.Reparses :=
  ⟨h.derives.lift (Nat.zero_le _), fun _ => h⟩

theorem of_primary (h : Derives .primary e.lexemes fun m : Expr => m.bare = e.bare) :
    e.Reparses := of_applies (.of_primary h)

theorem expression (h : e.Reparses) :
    Derives .expression e.lexemes fun m : Expr => m.bare = e.bare :=
  h.level.lift e.rank_le_loosest

/-- An operand, in its place. -/
theorem enclosed {test : Nat → Bool} {n : Nat} (h : e.Reparses)
    (htest : ∀ k, n < k → test k = true) :
    Derives (.level n) (Shape.enclosed (e.isBinary test) e.lexemes)
      fun m : Expr => m.bare = e.bare :=
  h.level.enclosed e.rank_le_loosest fun hneeded => rank_le_of_isBinary hneeded htest

/-- A callee. -/
theorem callee (h : e.Reparses) :
    Applies (Shape.enclosed e.isOperation e.lexemes) fun m => m.bare = e.bare := by
  cases hoperation : e.isOperation with
  | true => exact .of_primary h.expression.grouping
  | false => exact h.applies hoperation

end Reparses

end Expr

theorem derives_number {value : Float} {raw : String} (h : Literal.numberValue? raw = some value)
    (s : Span) :
    Derives .primary [(.number, raw)] fun m : Expr => m.bare = (Expr.number value raw s).bare := by
  intro ts hts
  obtain ⟨t, rfl, ht, rfl⟩ := map_shape_eq_single hts
  simp only [Literal.numberValue?] at h
  split at h
  · next hfinite =>
    obtain rfl := Option.some.inj h
    exact ⟨.number t ht hfinite, rfl⟩
  · contradiction

/-- Every node derives from its printed words where no guard can be taken for the blank name. -/
theorem reparses :
    Hereditary
      (fun e => e.WellFormed → (∀ g ∈ e.guards, g.opensBlank = false) → e.Reparses)
      (fun c => c.WellFormed → (∀ g ∈ c.guards, g.opensBlank = false) →
        Derives .clause c.lexemes fun m : Clause => m.bare = c.bare) where
  number value raw s h _ := .of_primary (derives_number h.2 s)
  string value raw s h _ := by
    apply Expr.Reparses.of_primary
    intro ts hts
    obtain ⟨t, rfl, ht, rfl⟩ := map_shape_eq_single hts
    refine ⟨.string t ht, ?_⟩
    simp [Derivation.meaning, h.2]
  boolean value raw s h _ := by
    apply Expr.Reparses.of_primary
    intro ts hts
    obtain ⟨t, rfl, ht, rfl⟩ := map_shape_eq_single hts
    refine ⟨.boolean t ht, ?_⟩
    simp [Derivation.meaning, h.2]
  ident name s h _ := by
    apply Expr.Reparses.of_primary
    intro ts hts
    obtain ⟨t, rfl, ht, rfl⟩ := map_shape_eq_single hts
    exact ⟨.ident t ht, rfl⟩
  tuple es s hes h hclear := by
    simp only [Expr.WellFormed, Expr.allWellFormed_iff] at h
    simp only [Expr.guards, Expr.guardsOfList_eq, List.mem_flatMap] at hclear
    apply Expr.Reparses.of_primary
    rw [Expr.lexemes, Expr.lexemesOfList_eq]
    apply Derives.tuple h.1
    exact fun e he => (hes e he (h.2 e he) fun g hg => hclear g ⟨e, he, hg⟩).expression
  binary op a b s ha hb h hclear := by
    simp only [Expr.guards, List.mem_append] at hclear
    have hleft := ha h.1 fun g hg => hclear g (.inl hg)
    have hright := hb h.2 fun g hg => hclear g (.inr hg)
    obtain ⟨n, level⟩ : ∃ n, op.precedence = n + 1 :=
      Nat.exists_eq_add_of_lt op.precedence_pos |>.imp fun n hn => by omega
    refine ⟨?_, fun hoperation => by contradiction⟩
    rw [show (Expr.binary op a b s).rank = n + 1 from level]
    apply Derives.binary level
    · exact hleft.enclosed fun k hk => by simp; omega
    · exact hright.enclosed fun k hk => by simp; omega
  unary op a s ha h hclear := by
    refine ⟨?_, fun hoperation => by contradiction⟩
    exact ((ha h hclear).enclosed fun _ _ => rfl).unary s
  call f args s hf hargs h hclear := by
    simp only [Expr.WellFormed, Expr.allWellFormed_iff] at h
    simp only [Expr.guards, Expr.guardsOfList_eq, List.mem_append, List.mem_flatMap] at hclear
    apply Expr.Reparses.of_applies
    rw [Expr.lexemes, Expr.lexemesOfList_eq]
    apply Applies.call (hf h.1 fun g hg => hclear g (.inl hg)).callee
    exact fun e he => (hargs e he (h.2 e he) fun g hg => hclear g (.inr ⟨e, he, hg⟩)).expression
  matching params clauses s hcs h hclear := by
    simp only [Expr.WellFormed, Clause.allWellFormed_iff] at h
    simp only [Expr.guards, Clause.guardsOfList_eq, List.mem_flatMap] at hclear
    apply Expr.Reparses.of_primary
    exact .matching (fun c hc => hcs c hc (h.2 c hc) fun g hg => hclear g ⟨c, hc, hg⟩) s
  guarded condition body s hcondition hbody h hclear := by
    simp only [Clause.guards, List.mem_cons, List.mem_append] at hclear
    have hblank : condition.opensBlank = false := hclear condition (.inl rfl)
    apply Derives.guarded (hcondition h.1 fun g hg => hclear g (.inr (.inl hg))).expression
    · exact fun ts hts => (h.1.leadsBlank_eq hts).trans hblank
    · exact (hbody h.2 fun g hg => hclear g (.inr (.inr hg))).expression
  catchAll body s hbody h hclear := .catchAll (hbody h hclear).expression s

theorem Expr.WellFormed.derives {e : Expr} (h : e.WellFormed)
    (hclear : ∀ g ∈ e.guards, g.opensBlank = false) :
    Derives .expression e.lexemes fun m : Expr => m.bare = e.bare :=
  (Clausal.reparses.expr e h hclear).expression

/-- The types of a declaration are printed with the result at their end. -/
theorem derives_types {returnType : String} {paramTypes : List String}
    (h : ∀ t ∈ paramTypes ++ [returnType], Spelled .typeName t ∨ Spelled .identifier t) :
    Derives .types
      (separated ((paramTypes ++ [returnType]).map fun t => [(Lexeme.wordKind t.toList, t)]))
      fun m : List String × String => m = (paramTypes, returnType) := by
  induction paramTypes with
  | nil =>
      intro ts hts
      obtain ⟨t, rfl, ht, htext⟩ := map_shape_eq_single hts
      have hkind := (spelled_typeWord (h returnType (by simp))).2
      exact ⟨.lastType t (ht ▸ hkind), congrArg (([] : List String), ·) htext⟩
  | cons p ps ih =>
      obtain ⟨hp, hps⟩ := List.forall_mem_cons.mp h
      obtain ⟨q, qs, hqs⟩ : ∃ q qs, ps ++ [returnType] = q :: qs :=
        List.exists_cons_of_ne_nil (by simp)
      intro ts hts
      rw [List.cons_append, hqs] at hts
      obtain ⟨t, us, rfl, ht, rfl, hus⟩ := map_shape_eq_cons hts
      obtain ⟨comma, w, rfl, hm, -, hw⟩ := map_shape_eq_cons hus
      rw [hqs] at ih
      obtain ⟨others, hothers⟩ := ih (hqs ▸ hps) w hw
      refine ⟨.nextType t comma (ht ▸ (spelled_typeWord hp).2) hm others, ?_⟩
      simp only [Derivation.meaning]
      rw [hothers]

theorem FunctionDecl.WellFormed.derives {d : FunctionDecl} (h : d.WellFormed) (s : Span)
    (hclear : ∀ g ∈ d.body.toExpr.guards, g.opensBlank = false) :
    Derives .statement (Statement.function d s).lexemes
      fun m : Statement => m.bare = (Statement.function d s).bare := by
  intro ts hts
  obtain ⟨opening, us, rfl, hokind, hotext, hus⟩ := map_shape_eq_cons hts
  obtain ⟨u, vs, rfl, hu, hvs⟩ := List.map_eq_append_iff.mp hus
  obtain ⟨closing, vs, rfl, hckind, hctext, hvs⟩ := map_shape_eq_cons hvs
  obtain ⟨name, vs, rfl, hn, hname, hvs⟩ := map_shape_eq_cons hvs
  obtain ⟨assign, vs, rfl, ha, -, hvs⟩ := map_shape_eq_cons hvs
  obtain ⟨v, stop, rfl, hstop, hv⟩ := map_shape_eq_append_single hvs
  obtain ⟨types, htypes⟩ := derives_types h.types u hu
  obtain ⟨result, hresult⟩ := h.body.derives hclear v hv
  have hbody : Match.bare (Match.ofExpr result.meaning) = d.body.bare := Match.bare_ofExpr hresult
  have hparams : Match.paramNames (Match.ofExpr result.meaning) = d.params := by
    rw [h.params, ← Match.paramNames_bare, hbody, Match.paramNames_bare]
  refine ⟨.function opening closing name stop (by simp [Token.is, hokind, hotext])
    (by simp [Token.is, hckind, hctext]) hn hstop types (.plain assign ha result), ?_⟩
  simp only [Derivation.meaning]
  rw [htypes, hparams, hname, Statement.bare_function, Statement.bare_function, hbody]

theorem Statement.WellFormed.derives {s : Statement} (h : s.WellFormed)
    (hclear : ∀ g ∈ s.guards, g.opensBlank = false) :
    Derives .statement s.lexemes fun m : Statement => m.bare = s.bare := by
  cases s with
  | define typeName name init s =>
      obtain ⟨-, -, hinit⟩ := h
      intro ts hts
      obtain ⟨type, us, rfl, ht, rfl, hus⟩ := map_shape_eq_cons hts
      obtain ⟨t, vs, rfl, hn, rfl, hvs⟩ := map_shape_eq_cons hus
      obtain ⟨assign, ws, rfl, ha, -, hws⟩ := map_shape_eq_cons hvs
      obtain ⟨w, stop, rfl, hstop, hw⟩ := map_shape_eq_append_single hws
      obtain ⟨d, hd⟩ := hinit.derives hclear w hw
      refine ⟨.define type t assign stop ht hn ha hstop d, ?_⟩
      exact congrArg (Statement.define type.text t.text · (.point 0)) hd
  | function d s => exact FunctionDecl.WellFormed.derives h s hclear
  | expression e s =>
      intro ts hts
      obtain ⟨w, stop, rfl, hstop, hw⟩ := map_shape_eq_append_single hts
      obtain ⟨d, hd⟩ := Expr.WellFormed.derives h hclear w hw
      exact ⟨.expression stop hstop d, congrArg (Statement.expression · (.point 0)) hd⟩
  | comment text s =>
      intro ts hts
      obtain ⟨t, rfl, ht, rfl⟩ := map_shape_eq_single hts
      exact ⟨.comment t ht, rfl⟩

/-- A program derives from its printed words, statement by statement. -/
theorem Program.WellFormed.derives {p : Program} (h : p.WellFormed) (hclear : p.GuardsClear) :
    Derives .program p.lexemes
      fun ms : List Statement => ms.map (·.bare) = p.statements.map (·.bare) := by
  obtain ⟨ss⟩ := p
  induction ss with
  | nil =>
      intro ts hts
      obtain rfl := List.map_eq_nil_iff.mp hts
      exact ⟨.noStatement, rfl⟩
  | cons s ss ih =>
      intro ts hts
      obtain ⟨hs, hss⟩ := List.forall_mem_cons.mp h
      have hclear' : ∀ g ∈ s.guards ++ Program.guards ⟨ss⟩, g.opensBlank = false := hclear
      obtain ⟨hfirst, hmore⟩ := List.forall_mem_append.mp hclear'
      obtain ⟨u, v, rfl, hu, hv⟩ := List.map_eq_append_iff.mp hts
      obtain ⟨d, hd⟩ := hs.derives hfirst u hu
      obtain ⟨others, hothers⟩ := ih hss hmore v hv
      refine ⟨.nextStatement d others, ?_⟩
      simp only [Derivation.meaning, List.map_cons, hd]
      rw [hothers]

/-- A text whose tokens derive a program is parsed to it. -/
theorem Program.parse_eq_ok {source : String} {ts : List Token}
    (hitems : (TokenStream.ofSource source).items = ts.map .ok) (d : Derivation .program ts) :
    Program.parse source = .ok ⟨d.meaning⟩ := by
  rw [Program.parse, Program.ofStream, hitems]
  exact d.ofItems_eq_ok _

/-- Parsing undoes printing, up to spans: the parentheses that the printer leaves out are those
that the grammar does not need. -/
theorem Program.parse_print (p : Program) (h : p.WellFormed) (hclear : p.GuardsClear) :
    ∃ q, Program.parse p.print = .ok q ∧ q.bare = p.bare := by
  obtain ⟨ts, hitems, hshapes⟩ := h.items_print
  obtain ⟨d, hd⟩ := h.derives hclear ts hshapes
  exact ⟨⟨d.meaning⟩, Program.parse_eq_ok hitems d, congrArg Program.mk hd⟩

/-- A program that needs parentheses around an operand, an operation that is negated and an
operation that is called. -/
def enclosedOperations : Program :=
  let word (name : String) : Expr := .ident name (.point 0)
  let sum : Expr := .binary .add (word "x") (word "y") (.point 0)
  let called : Expr := .call sum [.string "a" "\"a\"" (.point 0)] (.point 0)
  ⟨[.expression (.matching [⟨"x", .point 0⟩, ⟨"y", .point 0⟩]
    [.guarded (.unary .not sum (.point 0)) (.binary .mul sum (word "_") (.point 0)) (.point 0),
      .catchAll called (.point 0)] (.point 0)) (.point 0)]⟩

theorem parse_print_enclosedOperations :
    enclosedOperations.WellFormed ∧ enclosedOperations.GuardsClear ∧
      ∃ q, Program.parse enclosedOperations.print = .ok q ∧ q.bare = enclosedOperations.bare := by
  have hx : Spelled .identifier "x" := spelled_iff.mpr ⟨_, _, rfl, rfl, rfl⟩
  have hy : Spelled .identifier "y" := spelled_iff.mpr ⟨_, _, rfl, rfl, rfl⟩
  have hblank : Spelled .identifier "_" := spelled_iff.mpr ⟨_, _, rfl, rfl, rfl⟩
  have ha : Spelled .string "\"a\"" := spelled_iff.mpr ⟨_, _, rfl, rfl, rfl⟩
  have hvalue : Literal.stringValue "\"a\"" = "a" := by decide +kernel
  have h : enclosedOperations.WellFormed := by
    simp [enclosedOperations, Program.WellFormed, Statement.WellFormed, Expr.WellFormed,
      Clause.WellFormed, hx, hy, hblank, ha, hvalue]
  have hclear : enclosedOperations.GuardsClear :=
    List.forall_mem_singleton.mpr (by decide +kernel)
  exact ⟨h, hclear, Program.parse_print enclosedOperations h hclear⟩

end Clausal
