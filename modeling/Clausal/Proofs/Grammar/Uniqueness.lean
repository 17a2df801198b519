import Clausal.Proofs.Grammar.Completeness
import Clausal.Proofs.Grammar.Soundness

/-!
Every accepted sequence of tokens has exactly one derivation. The statement that carries the
induction compares two derivations of one phrase on two ways to cut the same tokens into a word
and a rest: where both rests end the phrase, the words and the derivations are the same. The first
token tells which production was used, and what a phrase ends before tells where it stops.
-/

namespace Clausal

open Token

namespace Derivation

variable {s : Phrase} {u v w : List Token}

/-- No other derivation of the phrase is found at the front of the same tokens. -/
def Determined (d : Derivation s u) : Prop :=
  ∀ v (d' : Derivation s v) rest rest', u ++ rest = v ++ rest' → s.Ends rest → s.Ends rest' →
    (⟨u, d⟩ : Σ w, Derivation s w) = ⟨v, d'⟩ ∧ rest = rest'

theorem determined_number (t : Token) (ht : t.kind = .number)
    (finite : (Literal.numberValue t.text).isFinite = true) :
    (Derivation.number t ht finite).Determined := by
  intro v d' rest rest' h _ _
  cases d' with
  | number t' ht' finite' =>
      obtain ⟨rfl, rfl⟩ := List.cons.inj h
      exact ⟨rfl, rfl⟩
  | _ =>
      exfalso
      obtain ⟨rfl, -⟩ := List.cons.inj h
      simp_all [Token.is]

theorem determined_string (t : Token) (ht : t.kind = .string) :
    (Derivation.string t ht).Determined := by
  intro v d' rest rest' h _ _
  cases d' with
  | string t' ht' =>
      obtain ⟨rfl, rfl⟩ := List.cons.inj h
      exact ⟨rfl, rfl⟩
  | _ =>
      exfalso
      obtain ⟨rfl, -⟩ := List.cons.inj h
      simp_all [Token.is]

theorem determined_boolean (t : Token) (ht : t.kind = .boolean) :
    (Derivation.boolean t ht).Determined := by
  intro v d' rest rest' h _ _
  cases d' with
  | boolean t' ht' =>
      obtain ⟨rfl, rfl⟩ := List.cons.inj h
      exact ⟨rfl, rfl⟩
  | _ =>
      exfalso
      obtain ⟨rfl, -⟩ := List.cons.inj h
      simp_all [Token.is]

theorem determined_ident (t : Token) (ht : t.kind = .identifier) :
    (Derivation.ident t ht).Determined := by
  intro v d' rest rest' h _ _
  cases d' with
  | ident t' ht' =>
      obtain ⟨rfl, rfl⟩ := List.cons.inj h
      exact ⟨rfl, rfl⟩
  | _ =>
      exfalso
      obtain ⟨rfl, -⟩ := List.cons.inj h
      simp_all [Token.is]

/-- A comma or a parenthesis after the first expression tells a tuple from a grouping. -/
theorem determined_grouping {opening closing : Token} (ho : opening.kind = .leftParen)
    (hc : closing.kind = .rightParen) {inner : Derivation .expression w}
    (ih : inner.Determined) : (grouping opening closing ho hc inner).Determined := by
  intro v d' rest rest' h _ _
  cases d' with
  | grouping opening' closing' ho' hc' inner' =>
      simp only [List.cons_append, List.append_assoc, List.cons.injEq] at h
      obtain ⟨rfl, h⟩ := h
      obtain ⟨hd, h₁⟩ := ih _ inner' _ _ h (stops_of_kind _ _ (by simp [hc]))
        (stops_of_kind _ _ (by simp [hc']))
      cases hd
      obtain ⟨rfl, rfl⟩ := List.cons.inj h₁
      exact ⟨rfl, rfl⟩
  | tuple opening' comma' closing' ho' hm' hc' first' others' =>
      exfalso
      simp only [List.cons_append, List.append_assoc, List.cons.injEq] at h
      obtain ⟨-, h₁⟩ := ih _ first' _ _ h.2 (stops_of_kind _ _ (by simp [hc]))
        (stops_of_kind _ _ (by simp [hm']))
      obtain ⟨rfl, -⟩ := List.cons.inj h₁
      simp_all
  | _ =>
      exfalso
      obtain ⟨rfl, -⟩ := List.cons.inj h
      simp_all [Token.is]

theorem determined_tuple {opening comma closing : Token} (ho : opening.kind = .leftParen)
    (hm : comma.kind = .comma) (hc : closing.kind = .rightParen)
    {first : Derivation .expression u} {others : Derivation .expressions v}
    (ih : first.Determined) (ihs : others.Determined) :
    (tuple opening comma closing ho hm hc first others).Determined := by
  intro v d' rest rest' h _ _
  cases d' with
  | tuple opening' comma' closing' ho' hm' hc' first' others' =>
      simp only [List.cons_append, List.append_assoc, List.cons.injEq] at h
      obtain ⟨rfl, h⟩ := h
      obtain ⟨hd, h₁⟩ := ih _ first' _ _ h (stops_of_kind _ _ (by simp [hm]))
        (stops_of_kind _ _ (by simp [hm']))
      cases hd
      obtain ⟨rfl, h₂⟩ := List.cons.inj h₁
      obtain ⟨hd, h₃⟩ := ihs _ others' _ _ h₂
        ⟨stops_of_kind _ _ (by simp [hc]), by simp [hc]⟩
        ⟨stops_of_kind _ _ (by simp [hc']), by simp [hc']⟩
      cases hd
      obtain ⟨rfl, rfl⟩ := List.cons.inj h₃
      exact ⟨rfl, rfl⟩
  | grouping opening' closing' ho' hc' inner' =>
      exfalso
      simp only [List.cons_append, List.append_assoc, List.cons.injEq] at h
      obtain ⟨-, h₁⟩ := ih _ inner' _ _ h.2 (stops_of_kind _ _ (by simp [hm]))
        (stops_of_kind _ _ (by simp [hc']))
      obtain ⟨rfl, -⟩ := List.cons.inj h₁
      simp_all
  | _ =>
      exfalso
      obtain ⟨rfl, -⟩ := List.cons.inj h
      simp_all [Token.is]

theorem determined_matching {keyword opening closing : Token}
    (hk : keyword.is .keyword "match" = true) (ho : opening.kind = .leftBrace)
    (hc : closing.kind = .rightBrace) {params : Derivation .binders u}
    {cases : Derivation .clauses v} (ih : params.Determined) (ihs : cases.Determined) :
    (matching keyword opening closing hk ho hc params cases).Determined := by
  intro v d' rest rest' h _ _
  cases d' with
  | matching keyword' opening' closing' hk' ho' hc' params' cases' =>
      simp only [List.cons_append, List.append_assoc, List.cons.injEq] at h
      obtain ⟨rfl, h⟩ := h
      obtain ⟨hd, h₁⟩ := ih _ params' _ _ h trivial trivial
      cases hd
      obtain ⟨rfl, h₂⟩ := List.cons.inj h₁
      have hends : Phrase.clauses.Ends (closing :: rest) := by simp [Phrase.Ends, hc]
      have hends' : Phrase.clauses.Ends (closing' :: rest') := by simp [Phrase.Ends, hc']
      obtain ⟨hd, h₃⟩ := ihs _ cases' _ _ h₂ hends hends'
      cases hd
      obtain ⟨rfl, rfl⟩ := List.cons.inj h₃
      exact ⟨rfl, rfl⟩
  | _ =>
      exfalso
      obtain ⟨rfl, -⟩ := List.cons.inj h
      simp_all [Token.is]

theorem determined_called {callee : Derivation .primary u} {others : Derivation .calls v}
    (ih : callee.Determined) (ihs : others.Determined) : (called callee others).Determined := by
  intro v d' rest rest' h hrest hrest'
  cases d' with
  | called callee' others' =>
      simp only [List.append_assoc] at h
      obtain ⟨hd, h₁⟩ := ih _ callee' _ _ h trivial trivial
      cases hd
      obtain ⟨hd, h₂⟩ := ihs _ others' _ _ h₁ hrest hrest'
      cases hd
      exact ⟨rfl, h₂⟩
  | unary t' op' ht' operand' =>
      exfalso
      obtain ⟨t, u, rfl, ht⟩ := callee.opens rfl
      obtain ⟨rfl, -⟩ := List.cons.inj h
      simp [ht.unaryOp?_eq_none] at ht'

theorem determined_unary {t : Token} {op : UnaryOp} (ht : t.unaryOp? = some op)
    {operand : Derivation (.level 0) w} (ih : operand.Determined) :
    (unary t op ht operand).Determined := by
  intro v d' rest rest' h hrest hrest'
  cases d' with
  | unary t' op' ht' operand' =>
      obtain ⟨rfl, h₁⟩ := List.cons.inj h
      obtain rfl : op = op' := Option.some.inj (ht.symm.trans ht')
      obtain ⟨hd, h₂⟩ := ih _ operand' _ _ h₁ hrest hrest'
      cases hd
      exact ⟨rfl, h₂⟩
  | called callee' others' =>
      exfalso
      obtain ⟨t', u', rfl, ht'⟩ := callee'.opens rfl
      obtain ⟨rfl, -⟩ := List.cons.inj h
      simp [ht'.unaryOp?_eq_none] at ht

theorem determined_operations {n : Nat} {first : Derivation (.level n) u}
    {others : Derivation (.chain n) v} (ih : first.Determined) (ihs : others.Determined) :
    (operations first others).Determined := by
  intro v d' rest rest' h hrest hrest'
  cases d' with
  | operations first' others' =>
      simp only [List.append_assoc] at h
      obtain ⟨hd, h₁⟩ := ih _ first' _ _ h (others.stops_chain_append hrest)
        (others'.stops_chain_append hrest')
      cases hd
      obtain ⟨hd, h₂⟩ := ihs _ others' _ _ h₁ hrest hrest'
      cases hd
      exact ⟨rfl, h₂⟩

/-- No operator of the level follows where its chain has ended. -/
theorem not_stops_operation {n : Nat} {t : Token} {op : BinaryOp} {rest : List Token}
    (ht : t.binaryOp? = some op) (level : op.precedence = n + 1)
    (h : Stops (n + 1) (t :: rest)) : False := by
  have := h.2 t rfl op ht
  omega

/-- A chain that takes nothing can be followed by no operator of its level. -/
theorem determined_noOperation {n : Nat} : (noOperation (n := n)).Determined := by
  intro v d' rest rest' h hrest hrest'
  cases d' with
  | noOperation => exact ⟨rfl, h⟩
  | operation t' op' ht' level' operand' others' =>
      subst h
      exact (not_stops_operation ht' level' hrest).elim

/-- The operators of a level are told by their precedence, so no other operation begins with this
one. -/
theorem determined_operation {n : Nat} {t : Token} {op : BinaryOp} (ht : t.binaryOp? = some op)
    (level : op.precedence = n + 1) {operand : Derivation (.level n) u}
    {others : Derivation (.chain n) v} (ih : operand.Determined) (ihs : others.Determined) :
    (operation t op ht level operand others).Determined := by
  intro v d' rest rest' h hrest hrest'
  cases d' with
  | noOperation =>
      obtain rfl : t :: (_ ++ _) ++ rest = rest' := h
      exact (not_stops_operation ht level hrest').elim
  | operation t' op' ht' level' operand' others' =>
      simp only [List.cons_append, List.append_assoc, List.cons.injEq] at h
      obtain ⟨rfl, h⟩ := h
      obtain rfl : op = op' := Option.some.inj (ht.symm.trans ht')
      obtain ⟨hd, h₁⟩ := ih _ operand' _ _ h (others.stops_chain_append hrest)
        (others'.stops_chain_append hrest')
      cases hd
      obtain ⟨hd, h₂⟩ := ihs _ others' _ _ h₁ hrest hrest'
      cases hd
      exact ⟨rfl, h₂⟩

/-- No argument list follows where the calls have ended. -/
theorem not_stops_call (args : Derivation .arguments u) {rest : List Token}
    (h : Stops 0 (u ++ rest)) : False := by
  obtain ⟨t, u, rfl, ht⟩ := args.opens rfl
  have hparen := h.1
  simp only [Phrase.Starts] at ht
  simp [ht] at hparen

/-- A list of calls that takes nothing can be followed by no opening bracket. -/
theorem determined_noCall : noCall.Determined := by
  intro v d' rest rest' h hrest hrest'
  cases d' with
  | noCall => exact ⟨rfl, h⟩
  | call args' others' =>
      obtain rfl : rest = _ := h.trans (List.append_assoc ..)
      exact (not_stops_call args' hrest).elim

theorem determined_call {args : Derivation .arguments u} {others : Derivation .calls v}
    (ih : args.Determined) (ihs : others.Determined) : (call args others).Determined := by
  intro v d' rest rest' h hrest hrest'
  cases d' with
  | noCall =>
      obtain rfl : rest' = _ := h.symm.trans (List.append_assoc ..)
      exact (not_stops_call args hrest').elim
  | call args' others' =>
      simp only [List.append_assoc] at h
      obtain ⟨hd, h₁⟩ := ih _ args' _ _ h trivial trivial
      cases hd
      obtain ⟨hd, h₂⟩ := ihs _ others' _ _ h₁ hrest hrest'
      cases hd
      exact ⟨rfl, h₂⟩

/-- No expression starts with a closing parenthesis. -/
theorem not_expressions_closing {closing : Token} (hc : closing.kind = .rightParen)
    (d : Derivation .expressions w) {rest rest' : List Token}
    (h : closing :: rest = w ++ rest') : False := by
  obtain ⟨t, u, rfl, ht⟩ := d.opens rfl
  obtain ⟨rfl, -⟩ := List.cons.inj h
  exact ht.kind_ne (by simp) hc

theorem determined_noArguments {opening closing : Token} (ho : opening.kind = .leftParen)
    (hc : closing.kind = .rightParen) : (noArguments opening closing ho hc).Determined := by
  intro v d' rest rest' h _ _
  cases d' with
  | noArguments opening' closing' ho' hc' =>
      simp only [List.cons_append, List.nil_append, List.cons.injEq] at h
      obtain ⟨rfl, rfl, rfl⟩ := h
      exact ⟨rfl, rfl⟩
  | someArguments opening' closing' ho' hc' args' =>
      simp only [List.cons_append, List.nil_append, List.append_assoc, List.cons.injEq] at h
      exact (not_expressions_closing hc args' h.2).elim

theorem determined_someArguments {opening closing : Token} (ho : opening.kind = .leftParen)
    (hc : closing.kind = .rightParen) {args : Derivation .expressions w} (ih : args.Determined) :
    (someArguments opening closing ho hc args).Determined := by
  intro v d' rest rest' h _ _
  cases d' with
  | noArguments opening' closing' ho' hc' =>
      simp only [List.cons_append, List.nil_append, List.append_assoc, List.cons.injEq] at h
      exact (not_expressions_closing hc' args h.2.symm).elim
  | someArguments opening' closing' ho' hc' args' =>
      simp only [List.cons_append, List.append_assoc, List.cons.injEq] at h
      obtain ⟨rfl, h⟩ := h
      obtain ⟨hd, h₁⟩ := ih _ args' _ _ h
        ⟨stops_of_kind _ _ (by simp [hc]), by simp [hc]⟩
        ⟨stops_of_kind _ _ (by simp [hc']), by simp [hc']⟩
      cases hd
      obtain ⟨rfl, rfl⟩ := List.cons.inj h₁
      exact ⟨rfl, rfl⟩

theorem determined_lastExpression {e : Derivation .expression w} (ih : e.Determined) :
    (lastExpression e).Determined := by
  intro v d' rest rest' h hrest hrest'
  cases d' with
  | lastExpression e' =>
      obtain ⟨hd, h₁⟩ := ih _ e' _ _ h hrest.1 hrest'.1
      cases hd
      exact ⟨rfl, h₁⟩
  | nextExpression comma' hm' e' others' =>
      exfalso
      simp only [List.append_assoc] at h
      obtain ⟨-, rfl⟩ := ih _ e' _ _ h hrest.1 (stops_of_kind _ _ (by simp [hm']))
      simp [Phrase.Ends, hm'] at hrest

theorem determined_nextExpression {comma : Token} (hm : comma.kind = .comma)
    {e : Derivation .expression u} {others : Derivation .expressions v} (ih : e.Determined)
    (ihs : others.Determined) : (nextExpression comma hm e others).Determined := by
  intro v d' rest rest' h hrest hrest'
  cases d' with
  | lastExpression e' =>
      exfalso
      simp only [List.append_assoc] at h
      obtain ⟨-, rfl⟩ := ih _ e' _ _ h (stops_of_kind _ _ (by simp [hm])) hrest'.1
      simp [Phrase.Ends, hm] at hrest'
  | nextExpression comma' hm' e' others' =>
      simp only [List.append_assoc] at h
      obtain ⟨hd, h₁⟩ := ih _ e' _ _ h (stops_of_kind _ _ (by simp [hm]))
        (stops_of_kind _ _ (by simp [hm']))
      cases hd
      obtain ⟨rfl, h₂⟩ := List.cons.inj h₁
      obtain ⟨hd, h₃⟩ := ihs _ others' _ _ h₂ hrest hrest'
      cases hd
      exact ⟨rfl, h₃⟩

theorem determined_lastName {t : Token} (ht : t.kind = .identifier) :
    (lastName t ht).Determined := by
  intro v d' rest rest' h hrest hrest'
  cases d' with
  | lastName t' ht' =>
      obtain ⟨rfl, rfl⟩ := List.cons.inj h
      exact ⟨rfl, rfl⟩
  | nextName t' comma' ht' hm' others' =>
      obtain ⟨rfl, rfl⟩ := List.cons.inj h
      simp [Phrase.Ends, hm'] at hrest

theorem determined_nextName {t comma : Token} (ht : t.kind = .identifier)
    (hm : comma.kind = .comma) {others : Derivation .names w} (ih : others.Determined) :
    (nextName t comma ht hm others).Determined := by
  intro v d' rest rest' h hrest hrest'
  cases d' with
  | lastName t' ht' =>
      obtain ⟨rfl, rfl⟩ := List.cons.inj h
      simp [Phrase.Ends, hm] at hrest'
  | nextName t' comma' ht' hm' others' =>
      simp only [List.cons_append, List.cons.injEq] at h
      obtain ⟨rfl, rfl, h⟩ := h
      obtain ⟨hd, h₁⟩ := ih _ others' _ _ h hrest hrest'
      cases hd
      exact ⟨rfl, h₁⟩

theorem determined_noParameters {opening closing : Token} (ho : opening.kind = .leftParen)
    (hc : closing.kind = .rightParen) : (noParameters opening closing ho hc).Determined := by
  intro v d' rest rest' h _ _
  cases d' with
  | noParameters opening' closing' ho' hc' =>
      simp only [List.cons_append, List.nil_append, List.cons.injEq] at h
      obtain ⟨rfl, rfl, rfl⟩ := h
      exact ⟨rfl, rfl⟩
  | someParameters opening' closing' ho' hc' names' =>
      exfalso
      obtain ⟨t, u, rfl, ht⟩ := names'.opens rfl
      simp only [List.cons_append, List.cons.injEq] at h
      obtain ⟨-, rfl, -⟩ := h
      simp [Phrase.Starts, hc] at ht

theorem determined_someParameters {opening closing : Token} (ho : opening.kind = .leftParen)
    (hc : closing.kind = .rightParen) {names : Derivation .names w} (ih : names.Determined) :
    (someParameters opening closing ho hc names).Determined := by
  intro v d' rest rest' h _ _
  cases d' with
  | noParameters opening' closing' ho' hc' =>
      exfalso
      obtain ⟨t, u, rfl, ht⟩ := names.opens rfl
      simp only [List.cons_append, List.cons.injEq] at h
      obtain ⟨-, rfl, -⟩ := h
      simp [Phrase.Starts, hc'] at ht
  | someParameters opening' closing' ho' hc' names' =>
      simp only [List.cons_append, List.append_assoc, List.cons.injEq] at h
      obtain ⟨rfl, h⟩ := h
      obtain ⟨hd, h₁⟩ := ih _ names' _ _ h (by simp [Phrase.Ends, hc])
        (by simp [Phrase.Ends, hc'])
      cases hd
      obtain ⟨rfl, rfl⟩ := List.cons.inj h₁
      exact ⟨rfl, rfl⟩

theorem determined_enclosedBinders {params : Derivation .parameters w} (ih : params.Determined) :
    (enclosedBinders params).Determined := by
  intro v d' rest rest' h _ _
  cases d' with
  | enclosedBinders params' =>
      obtain ⟨hd, h₁⟩ := ih _ params' _ _ h trivial trivial
      cases hd
      exact ⟨rfl, h₁⟩
  | oneBinder t' ht' =>
      exfalso
      obtain ⟨t, u, rfl, ht⟩ := params.opens rfl
      obtain ⟨rfl, -⟩ := List.cons.inj h
      simp [Phrase.Starts, ht'] at ht

theorem determined_oneBinder {t : Token} (ht : t.kind = .identifier) :
    (oneBinder t ht).Determined := by
  intro v d' rest rest' h _ _
  cases d' with
  | enclosedBinders params' =>
      exfalso
      obtain ⟨t, u, rfl, ht'⟩ := params'.opens rfl
      obtain ⟨rfl, -⟩ := List.cons.inj h
      simp [Phrase.Starts, ht] at ht'
  | oneBinder t' ht' =>
      obtain ⟨rfl, rfl⟩ := List.cons.inj h
      exact ⟨rfl, rfl⟩

/-- No word is both of the keywords that begin a clause. -/
theorem otherwise_ne_when {t : Token} (h : t.is .keyword "otherwise" = true)
    (h' : t.is .keyword "when" = true) : False := by
  simp_all [Token.is]

/-- A condition does not start with the name after which a clause is taken in any case. -/
theorem leadsBlank_of_eq {t : Token} (ht : t.is .identifier "_" = true)
    (d : Derivation .expression u) (named : leadsBlank u = false) {rest rest' : List Token}
    (h : t :: rest = u ++ rest') : False := by
  obtain ⟨t', u, rfl, -⟩ := d.opens rfl
  obtain ⟨rfl, -⟩ := List.cons.inj h
  simp [ht] at named

/-- The blank name in front of the arrow is not a condition, so the clause is no guarded one. -/
theorem determined_blank {keyword name arrow stop : Token}
    (hk : keyword.is .keyword "when" = true) (hn : name.is .identifier "_" = true)
    (ha : arrow.kind = .arrow) (hs : stop.kind = .semicolon) {result : Derivation .expression w}
    (ih : result.Determined) : (blank keyword name arrow stop hk hn ha hs result).Determined := by
  intro v d' rest rest' h _ _
  cases d' with
  | blank keyword' name' arrow' stop' hk' hn' ha' hs' result' =>
      simp only [List.cons_append, List.append_assoc, List.cons.injEq] at h
      obtain ⟨rfl, rfl, rfl, h⟩ := h
      obtain ⟨hd, h₁⟩ := ih _ result' _ _ h (stops_of_kind _ _ (by simp [hs]))
        (stops_of_kind _ _ (by simp [hs']))
      cases hd
      obtain ⟨rfl, rfl⟩ := List.cons.inj h₁
      exact ⟨rfl, rfl⟩
  | otherwise keyword' arrow' stop' hk' ha' hs' result' =>
      obtain ⟨rfl, -⟩ := List.cons.inj h
      exact (otherwise_ne_when hk' hk).elim
  | guarded keyword' arrow' stop' hk' ha' hs' condition' named' result' =>
      simp only [List.cons_append, List.append_assoc, List.cons.injEq] at h
      exact (leadsBlank_of_eq hn condition' named' h.2).elim

theorem determined_otherwise {keyword arrow stop : Token}
    (hk : keyword.is .keyword "otherwise" = true) (ha : arrow.kind = .arrow)
    (hs : stop.kind = .semicolon) {result : Derivation .expression w} (ih : result.Determined) :
    (otherwise keyword arrow stop hk ha hs result).Determined := by
  intro v d' rest rest' h _ _
  cases d' with
  | otherwise keyword' arrow' stop' hk' ha' hs' result' =>
      simp only [List.cons_append, List.append_assoc, List.cons.injEq] at h
      obtain ⟨rfl, rfl, h⟩ := h
      obtain ⟨hd, h₁⟩ := ih _ result' _ _ h (stops_of_kind _ _ (by simp [hs]))
        (stops_of_kind _ _ (by simp [hs']))
      cases hd
      obtain ⟨rfl, rfl⟩ := List.cons.inj h₁
      exact ⟨rfl, rfl⟩
  | blank keyword' name' arrow' stop' hk' hn' ha' hs' result' =>
      obtain ⟨rfl, -⟩ := List.cons.inj h
      exact (otherwise_ne_when hk hk').elim
  | guarded keyword' arrow' stop' hk' ha' hs' condition' named' result' =>
      obtain ⟨rfl, -⟩ := List.cons.inj h
      exact (otherwise_ne_when hk hk').elim

/-- The condition does not lead with the blank name, so the clause is not the one without a
condition. -/
theorem determined_guarded {keyword arrow stop : Token} (hk : keyword.is .keyword "when" = true)
    (ha : arrow.kind = .arrow) (hs : stop.kind = .semicolon)
    {condition : Derivation .expression u} (named : leadsBlank u = false)
    {result : Derivation .expression v} (ih : condition.Determined) (ihs : result.Determined) :
    (guarded keyword arrow stop hk ha hs condition named result).Determined := by
  intro v d' rest rest' h _ _
  cases d' with
  | guarded keyword' arrow' stop' hk' ha' hs' condition' named' result' =>
      simp only [List.cons_append, List.append_assoc, List.cons.injEq] at h
      obtain ⟨rfl, h⟩ := h
      obtain ⟨hd, h₁⟩ := ih _ condition' _ _ h (stops_of_kind _ _ (by simp [ha]))
        (stops_of_kind _ _ (by simp [ha']))
      cases hd
      obtain ⟨rfl, h₂⟩ := List.cons.inj h₁
      obtain ⟨hd, h₃⟩ := ihs _ result' _ _ h₂ (stops_of_kind _ _ (by simp [hs]))
        (stops_of_kind _ _ (by simp [hs']))
      cases hd
      obtain ⟨rfl, rfl⟩ := List.cons.inj h₃
      exact ⟨rfl, rfl⟩
  | blank keyword' name' arrow' stop' hk' hn' ha' hs' result' =>
      simp only [List.cons_append, List.append_assoc, List.cons.injEq] at h
      exact (leadsBlank_of_eq hn' condition named h.2.symm).elim
  | otherwise keyword' arrow' stop' hk' ha' hs' result' =>
      obtain ⟨rfl, -⟩ := List.cons.inj h
      exact (otherwise_ne_when hk' hk).elim

/-- Neither a comment nor a clause starts with the brace before which clauses end. -/
theorem not_ends_clauses {t : Token} {rest : List Token}
    (ht : t.kind = .comment ∨ t.StartsClause) (h : Phrase.clauses.Ends (t :: rest)) : False := by
  simp only [Phrase.Ends, headKind_cons, beq_iff_eq] at h
  rcases ht with ht | ht | ht
  · simp [h] at ht
  · simp [kind_of_is ht] at h
  · simp [kind_of_is ht] at h

theorem StartsClause.kind_eq {t : Token} (ht : t.StartsClause) : t.kind = .keyword :=
  ht.elim kind_of_is kind_of_is

/-- A list of clauses that takes nothing can be followed by no keyword of a clause. -/
theorem determined_noClause : noClause.Determined := by
  intro v d' rest rest' h hrest hrest'
  cases d' with
  | noClause => exact ⟨rfl, h⟩
  | remark t' ht' others' =>
      obtain rfl : rest = _ := h
      exact (not_ends_clauses (.inl ht') hrest).elim
  | nextClause first' others' =>
      obtain ⟨t, u, rfl, ht⟩ := first'.opens rfl
      obtain rfl : rest = _ := h
      exact (not_ends_clauses (.inr ht) hrest).elim

theorem determined_remark {t : Token} (ht : t.kind = .comment) {others : Derivation .clauses w}
    (ih : others.Determined) : (remark t ht others).Determined := by
  intro v d' rest rest' h hrest hrest'
  cases d' with
  | noClause =>
      obtain rfl : _ = rest' := h
      exact (not_ends_clauses (.inl ht) hrest').elim
  | remark t' ht' others' =>
      obtain ⟨rfl, h₁⟩ := List.cons.inj h
      obtain ⟨hd, h₂⟩ := ih _ others' _ _ h₁ hrest hrest'
      cases hd
      exact ⟨rfl, h₂⟩
  | nextClause first' others' =>
      obtain ⟨t, u, rfl, ht'⟩ := first'.opens rfl
      obtain ⟨rfl, -⟩ := List.cons.inj h
      simp [StartsClause.kind_eq ht'] at ht

theorem determined_nextClause {first : Derivation .clause u} {others : Derivation .clauses v}
    (ih : first.Determined) (ihs : others.Determined) : (nextClause first others).Determined := by
  intro v d' rest rest' h hrest hrest'
  cases d' with
  | noClause =>
      obtain ⟨t, u, rfl, ht⟩ := first.opens rfl
      obtain rfl : _ = rest' := h
      exact (not_ends_clauses (.inr ht) hrest').elim
  | remark t' ht' others' =>
      obtain ⟨t, u, rfl, ht⟩ := first.opens rfl
      obtain ⟨rfl, -⟩ := List.cons.inj h
      simp [StartsClause.kind_eq ht] at ht'
  | nextClause first' others' =>
      simp only [List.append_assoc] at h
      obtain ⟨hd, h₁⟩ := ih _ first' _ _ h trivial trivial
      cases hd
      obtain ⟨hd, h₂⟩ := ihs _ others' _ _ h₁ hrest hrest'
      cases hd
      exact ⟨rfl, h₂⟩

theorem determined_lastType {t : Token} (ht : t.kind = .typeName ∨ t.kind = .identifier) :
    (lastType t ht).Determined := by
  intro v d' rest rest' h hrest hrest'
  cases d' with
  | lastType t' ht' =>
      obtain ⟨rfl, rfl⟩ := List.cons.inj h
      exact ⟨rfl, rfl⟩
  | nextType t' comma' ht' hm' others' =>
      obtain ⟨rfl, rfl⟩ := List.cons.inj h
      simp [Phrase.Ends, hm'] at hrest

theorem determined_nextType {t comma : Token} (ht : t.kind = .typeName ∨ t.kind = .identifier)
    (hm : comma.kind = .comma) {others : Derivation .types w} (ih : others.Determined) :
    (nextType t comma ht hm others).Determined := by
  intro v d' rest rest' h hrest hrest'
  cases d' with
  | lastType t' ht' =>
      obtain ⟨rfl, rfl⟩ := List.cons.inj h
      simp [Phrase.Ends, hm] at hrest'
  | nextType t' comma' ht' hm' others' =>
      simp only [List.cons_append, List.cons.injEq] at h
      obtain ⟨rfl, rfl, h⟩ := h
      obtain ⟨hd, h₁⟩ := ih _ others' _ _ h hrest hrest'
      cases hd
      exact ⟨rfl, h₁⟩

/-- A body with parameters begins with a bracket, and a plain one with the sign of an assignment. -/
theorem determined_sugared {assign : Token} (ha : assign.kind = .assign)
    {params : Derivation .parameters u} {result : Derivation .expression v}
    (ih : params.Determined) (ihs : result.Determined) :
    (sugared assign ha params result).Determined := by
  intro v d' rest rest' h hrest hrest'
  cases d' with
  | sugared assign' ha' params' result' =>
      simp only [List.append_assoc] at h
      obtain ⟨hd, h₁⟩ := ih _ params' _ _ h trivial trivial
      cases hd
      obtain ⟨rfl, h₂⟩ := List.cons.inj h₁
      obtain ⟨hd, h₃⟩ := ihs _ result' _ _ h₂ hrest hrest'
      cases hd
      exact ⟨rfl, h₃⟩
  | plain assign' ha' result' =>
      obtain ⟨t, u, rfl, ht⟩ := params.opens rfl
      obtain ⟨rfl, -⟩ := List.cons.inj h
      simp [Phrase.Starts, ha'] at ht

theorem determined_plain {assign : Token} (ha : assign.kind = .assign)
    {result : Derivation .expression w} (ih : result.Determined) :
    (plain assign ha result).Determined := by
  intro v d' rest rest' h hrest hrest'
  cases d' with
  | sugared assign' ha' params' result' =>
      obtain ⟨t, u, rfl, ht⟩ := params'.opens rfl
      obtain ⟨rfl, -⟩ := List.cons.inj h
      simp [Phrase.Starts, ha] at ht
  | plain assign' ha' result' =>
      obtain ⟨rfl, h₁⟩ := List.cons.inj h
      obtain ⟨hd, h₂⟩ := ih _ result' _ _ h₁ hrest hrest'
      cases hd
      exact ⟨rfl, h₂⟩

theorem determined_comment {t : Token} (ht : t.kind = .comment) :
    (comment t ht).Determined := by
  intro v d' rest rest' h _ _
  cases d' with
  | comment t' ht' =>
      obtain ⟨rfl, rfl⟩ := List.cons.inj h
      exact ⟨rfl, rfl⟩
  | expression stop' hs' e' =>
      obtain ⟨t', u, rfl, ht'⟩ := e'.opens rfl
      obtain ⟨rfl, -⟩ := List.cons.inj h
      exact (ht'.kind_ne (by simp) ht).elim
  | _ =>
      exfalso
      obtain ⟨rfl, -⟩ := List.cons.inj h
      simp_all [Token.is]

theorem determined_function {opening closing name stop : Token}
    (ho : opening.is .compareOp "<" = true) (hc : closing.is .compareOp ">" = true)
    (hn : name.kind = .identifier) (hs : stop.kind = .semicolon) {types : Derivation .types u}
    {body : Derivation .body v} (ih : types.Determined) (ihs : body.Determined) :
    (function opening closing name stop ho hc hn hs types body).Determined := by
  intro v d' rest rest' h _ _
  cases d' with
  | function opening' closing' name' stop' ho' hc' hn' hs' types' body' =>
      simp only [List.cons_append, List.append_assoc, List.cons.injEq] at h
      obtain ⟨rfl, h⟩ := h
      obtain ⟨hd, h₁⟩ := ih _ types' _ _ h (by simp [Phrase.Ends, kind_of_is hc])
        (by simp [Phrase.Ends, kind_of_is hc'])
      cases hd
      simp only [List.cons.injEq] at h₁
      obtain ⟨rfl, rfl, h₁⟩ := h₁
      obtain ⟨hd, h₂⟩ := ihs _ body' _ _ h₁ (stops_of_kind _ _ (by simp [hs]))
        (stops_of_kind _ _ (by simp [hs']))
      cases hd
      obtain ⟨rfl, rfl⟩ := List.cons.inj h₂
      exact ⟨rfl, rfl⟩
  | expression stop' hs' e' =>
      obtain ⟨t', u, rfl, ht'⟩ := e'.opens rfl
      obtain ⟨rfl, -⟩ := List.cons.inj h
      exact (ht'.kind_ne (by simp) (kind_of_is ho)).elim
  | _ =>
      exfalso
      obtain ⟨rfl, -⟩ := List.cons.inj h
      simp_all [Token.is]

theorem determined_define {type name assign stop : Token} (ht : type.kind = .typeName)
    (hn : name.kind = .identifier) (ha : assign.kind = .assign) (hs : stop.kind = .semicolon)
    {init : Derivation .expression w} (ih : init.Determined) :
    (define type name assign stop ht hn ha hs init).Determined := by
  intro v d' rest rest' h _ _
  cases d' with
  | define type' name' assign' stop' ht' hn' ha' hs' init' =>
      simp only [List.cons_append, List.append_assoc, List.cons.injEq] at h
      obtain ⟨rfl, rfl, rfl, h⟩ := h
      obtain ⟨hd, h₁⟩ := ih _ init' _ _ h (stops_of_kind _ _ (by simp [hs]))
        (stops_of_kind _ _ (by simp [hs']))
      cases hd
      obtain ⟨rfl, rfl⟩ := List.cons.inj h₁
      exact ⟨rfl, rfl⟩
  | expression stop' hs' e' =>
      obtain ⟨t', u, rfl, ht'⟩ := e'.opens rfl
      obtain ⟨rfl, -⟩ := List.cons.inj h
      exact (ht'.kind_ne (by simp) ht).elim
  | _ =>
      exfalso
      obtain ⟨rfl, -⟩ := List.cons.inj h
      simp_all [Token.is]

theorem determined_expression {stop : Token} (hs : stop.kind = .semicolon)
    {e : Derivation .expression w} (ih : e.Determined) :
    (expression stop hs e).Determined := by
  intro v d' rest rest' h _ _
  obtain ⟨t, u, hw, ht⟩ := e.opens rfl
  rw [hw] at h
  cases d' with
  | expression stop' hs' e' =>
      rw [← hw] at h
      simp only [List.append_assoc] at h
      obtain ⟨hd, h₁⟩ := ih _ e' _ _ h (stops_of_kind _ _ (by simp [hs]))
        (stops_of_kind _ _ (by simp [hs']))
      cases hd
      obtain ⟨rfl, rfl⟩ := List.cons.inj h₁
      exact ⟨rfl, rfl⟩
  | comment t' ht' =>
      obtain ⟨rfl, -⟩ := List.cons.inj h
      exact (ht.kind_ne (by simp) ht').elim
  | function opening' closing' name' stop' ho' hc' hn' hs' types' body' =>
      obtain ⟨rfl, -⟩ := List.cons.inj h
      exact (ht.kind_ne (by simp) (kind_of_is ho')).elim
  | define type' name' assign' stop' ht' hn' ha' hs' init' =>
      obtain ⟨rfl, -⟩ := List.cons.inj h
      exact (ht.kind_ne (by simp) ht').elim

theorem determined_noStatement : noStatement.Determined := by
  intro v d' rest rest' h hrest _
  cases d' with
  | noStatement => exact ⟨rfl, h⟩
  | nextStatement first' others' =>
      obtain ⟨t, u, rfl, -⟩ := first'.opens rfl
      obtain rfl : rest = [] := hrest
      simp at h

theorem determined_nextStatement {first : Derivation .statement u}
    {others : Derivation .program v} (ih : first.Determined) (ihs : others.Determined) :
    (nextStatement first others).Determined := by
  intro v d' rest rest' h hrest hrest'
  cases d' with
  | noStatement =>
      obtain ⟨t, u, rfl, -⟩ := first.opens rfl
      obtain rfl : rest' = [] := hrest'
      simp at h
  | nextStatement first' others' =>
      simp only [List.append_assoc] at h
      obtain ⟨hd, h₁⟩ := ih _ first' _ _ h trivial trivial
      cases hd
      obtain ⟨hd, h₂⟩ := ihs _ others' _ _ h₁ hrest hrest'
      cases hd
      exact ⟨rfl, h₂⟩

/-- Every derivation is the only one of its phrase at the front of its tokens. -/
theorem determined {s : Phrase} {w : List Token} (d : Derivation s w) : d.Determined := by
  induction d with
  | number t ht finite => exact determined_number t ht finite
  | string t ht => exact determined_string t ht
  | boolean t ht => exact determined_boolean t ht
  | ident t ht => exact determined_ident t ht
  | grouping _ _ ho hc _ ih => exact determined_grouping ho hc ih
  | tuple _ _ _ ho hm hc _ _ ih ihs => exact determined_tuple ho hm hc ih ihs
  | matching _ _ _ hk ho hc _ _ ih ihs => exact determined_matching hk ho hc ih ihs
  | called _ _ ih ihs => exact determined_called ih ihs
  | unary _ _ ht _ ih => exact determined_unary ht ih
  | operations _ _ ih ihs => exact determined_operations ih ihs
  | noOperation => exact determined_noOperation
  | operation _ _ ht level _ _ ih ihs => exact determined_operation ht level ih ihs
  | noCall => exact determined_noCall
  | call _ _ ih ihs => exact determined_call ih ihs
  | noArguments _ _ ho hc => exact determined_noArguments ho hc
  | someArguments _ _ ho hc _ ih => exact determined_someArguments ho hc ih
  | lastExpression _ ih => exact determined_lastExpression ih
  | nextExpression _ hm _ _ ih ihs => exact determined_nextExpression hm ih ihs
  | lastName _ ht => exact determined_lastName ht
  | nextName _ _ ht hm _ ih => exact determined_nextName ht hm ih
  | noParameters _ _ ho hc => exact determined_noParameters ho hc
  | someParameters _ _ ho hc _ ih => exact determined_someParameters ho hc ih
  | enclosedBinders _ ih => exact determined_enclosedBinders ih
  | oneBinder _ ht => exact determined_oneBinder ht
  | blank _ _ _ _ hk hn ha hs _ ih => exact determined_blank hk hn ha hs ih
  | otherwise _ _ _ hk ha hs _ ih => exact determined_otherwise hk ha hs ih
  | guarded _ _ _ hk ha hs _ named _ ih ihs => exact determined_guarded hk ha hs named ih ihs
  | noClause => exact determined_noClause
  | remark _ ht _ ih => exact determined_remark ht ih
  | nextClause _ _ ih ihs => exact determined_nextClause ih ihs
  | lastType _ ht => exact determined_lastType ht
  | nextType _ _ ht hm _ ih => exact determined_nextType ht hm ih
  | sugared _ ha _ _ ih ihs => exact determined_sugared ha ih ihs
  | plain _ ha _ ih => exact determined_plain ha ih
  | comment _ ht => exact determined_comment ht
  | function _ _ _ _ ho hc hn hs _ _ ih ihs => exact determined_function ho hc hn hs ih ihs
  | define _ _ _ _ ht hn ha hs _ ih => exact determined_define ht hn ha hs ih
  | expression _ hs _ ih => exact determined_expression hs ih
  | noStatement => exact determined_noStatement
  | nextStatement _ _ ih ihs => exact determined_nextStatement ih ihs

/-- A sequence of tokens has at most one derivation as a program. -/
theorem program_eq (d d' : Derivation .program w) : d = d' := by
  obtain ⟨h, -⟩ := d.determined w d' [] [] rfl rfl rfl
  exact eq_of_heq (Sigma.mk.inj h).2

end Derivation

/-- The parser accepts exactly the grammar. An error-free sequence of tokens is accepted if and
only if it has a derivation, it has one derivation at most, and the program that comes back is
what the derivation means, to the spans of its nodes. -/
theorem Program.ofItems_eq_ok_iff (ts : List Token) (endOffset : Nat) :
    (∀ p, Program.ofItems (ts.map .ok) endOffset = .ok p ↔
      ∃ d : Derivation .program ts, d.meaning = p.statements) ∧
    Subsingleton (Derivation .program ts) := by
  refine ⟨fun p => ⟨fun h => ?_, ?_⟩, ⟨Derivation.program_eq⟩⟩
  · obtain ⟨w, d, hw, hd⟩ := Program.derivation_of_ofItems h
    obtain rfl : ts = w := (List.map_inj_right fun _ _ => Except.ok.inj).mp hw
    exact ⟨d, hd⟩
  · rintro ⟨d, hd⟩
    obtain ⟨statements⟩ := p
    obtain rfl : d.meaning = statements := hd
    exact d.ofItems_eq_ok endOffset

end Clausal
