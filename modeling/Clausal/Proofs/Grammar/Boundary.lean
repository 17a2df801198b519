import Clausal.Proofs.Grammar.Derivation
import Clausal.Proofs.Grammar.Reading

/-!
Where phrases begin and end. A word of a phrase starts with one of few tokens, and a phrase that
could go on ends only before tokens that do not continue it. Both are what makes one token of
lookahead enough, and what makes derivations unique.
-/

namespace Clausal

namespace Token

/-- A literal, a name, an opening parenthesis or the word `match`. -/
def StartsPrimary (t : Token) : Prop :=
  t.kind ∈ [Kind.number, .string, .boolean, .identifier, .leftParen] ∨
    t.is .keyword "match" = true

def StartsExpression (t : Token) : Prop := t.StartsPrimary ∨ t.unaryOp?.isSome = true

def StartsClause (t : Token) : Prop :=
  t.is .keyword "when" = true ∨ t.is .keyword "otherwise" = true

def StartsStatement (t : Token) : Prop :=
  t.kind = .comment ∨ t.is .compareOp "<" = true ∨ t.kind = .typeName ∨ t.StartsExpression

/-- No call and no operator up to the level goes on with these tokens. -/
def Stops (n : Nat) (rest : List Token) : Prop :=
  headKind rest .leftParen = false ∧
    ∀ t ∈ rest.head?, ∀ op, t.binaryOp? = some op → n < op.precedence

theorem StartsPrimary.kind_mem {t : Token} (h : t.StartsPrimary) :
    t.kind ∈ [Kind.number, .string, .boolean, .identifier, .leftParen, .keyword] := by
  rcases h with h | h
  · exact List.mem_append_left [Kind.keyword] h
  · simp [kind_of_is h]

theorem StartsPrimary.unaryOp?_eq_none {t : Token} (h : t.StartsPrimary) :
    t.unaryOp? = none := by
  have hkind := h.kind_mem
  have hlogic : t.kind ≠ .logicOp := by rintro he; simp [he] at hkind
  have harith : t.kind ≠ .arithOp := by rintro he; simp [he] at hkind
  simp [unaryOp?, not_is_of_kind _ hlogic, not_is_of_kind _ harith]

theorem kind_of_unaryOp? {t : Token} {op : UnaryOp} (h : t.unaryOp? = some op) :
    t.kind = .logicOp ∨ t.kind = .arithOp := by
  unfold unaryOp? at h
  split at h
  · next ht => exact .inl (kind_of_is ht)
  · split at h
    · next ht => exact .inr (kind_of_is ht)
    · contradiction

theorem StartsExpression.kind_mem {t : Token} (h : t.StartsExpression) :
    t.kind ∈ [Kind.number, .string, .boolean, .identifier, .leftParen, .keyword, .logicOp,
      .arithOp] := by
  rcases h with h | h
  · exact List.mem_append_left [Kind.logicOp, .arithOp] h.kind_mem
  · obtain ⟨op, hop⟩ := Option.isSome_iff_exists.mp h
    rcases kind_of_unaryOp? hop with hk | hk <;> simp [hk]

/-- No expression starts as another statement does, or closes a list. -/
theorem StartsExpression.kind_ne {t : Token} (h : t.StartsExpression) {kind : Kind}
    (hkind : kind ∈ [Kind.comment, .typeName, .compareOp, .rightParen]) : t.kind ≠ kind := by
  rintro rfl
  have hmem := h.kind_mem
  simp only [List.mem_cons, List.not_mem_nil, or_false] at hkind
  rcases hkind with he | he | he | he <;> simp [he] at hmem

theorem kind_of_binaryOp? {t : Token} {op : BinaryOp} (h : t.binaryOp? = some op) :
    t.kind = .logicOp ∨ t.kind = .compareOp ∨ t.kind = .arithOp := by
  unfold binaryOp? at h
  split at h
  · next hk => exact .inl hk
  · next hk => exact .inr (.inl hk)
  · next hk => exact .inr (.inr hk)
  · contradiction

@[simp] theorem stops_nil (n : Nat) : Stops n [] := ⟨rfl, by simp⟩

/-- A token that is neither an operator nor an opening parenthesis ends any expression. -/
theorem stops_of_kind {t : Token} (n : Nat) (rest : List Token)
    (h : t.kind ∈ [Kind.rightParen, .comma, .semicolon, .arrow]) : Stops n (t :: rest) := by
  refine ⟨?_, fun t' ht' op hop => ?_⟩
  · rw [headKind_cons, beq_eq_false_iff_ne]
    rintro he
    simp [he] at h
  · obtain rfl : t = t' := by simpa using ht'
    rcases kind_of_binaryOp? hop with hk | hk | hk <;> simp [hk] at h

theorem Stops.mono {n m : Nat} {rest : List Token} (h : Stops n rest) (hle : m ≤ n) :
    Stops m rest :=
  ⟨h.1, fun t ht op hop => Nat.lt_of_le_of_lt hle (h.2 t ht op hop)⟩

theorem stops_of_binaryOp? {t : Token} {op : BinaryOp} {n : Nat} (rest : List Token)
    (ht : t.binaryOp? = some op) (level : n < op.precedence) : Stops n (t :: rest) := by
  refine ⟨?_, fun t' ht' op' hop => ?_⟩
  · rw [headKind_cons, beq_eq_false_iff_ne]
    rcases kind_of_binaryOp? ht with hk | hk | hk <;> simp [hk]
  · obtain rfl : t = t' := by simpa using ht'
    obtain rfl : op = op' := Option.some.inj (ht.symm.trans hop)
    exact level

end Token

namespace Phrase

open Token

/-- A phrase that repeats something, and may have the empty word. -/
def repeats : Phrase → Bool
  | chain _ | calls | clauses | program => true
  | _ => false

/-- The tokens with which a word of the phrase starts. -/
def Starts : Phrase → Token → Prop
  | level _ | expressions => StartsExpression
  | chain n => fun t => ∃ op, t.binaryOp? = some op ∧ op.precedence = n + 1
  | primary => StartsPrimary
  | calls | arguments | parameters => fun t => t.kind = .leftParen
  | names => fun t => t.kind = .identifier
  | binders => fun t => t.kind = .leftParen ∨ t.kind = .identifier
  | clause => StartsClause
  | clauses => fun t => t.kind = .comment ∨ t.StartsClause
  | types => fun t => t.kind = .typeName ∨ t.kind = .identifier
  | body => fun t => t.kind = .leftParen ∨ t.kind = .assign
  | statement | program => StartsStatement

/-- The tokens before which a word of the phrase is known to have ended. -/
def Ends : Phrase → List Token → Prop
  | level n => Stops n
  | chain n => Stops (n + 1)
  | calls => Stops 0
  | expressions => fun rest => Stops BinaryOp.loosest rest ∧ headKind rest .comma = false
  | names | types => fun rest => headKind rest .comma = false
  | clauses => fun rest => headKind rest .rightBrace = true
  | body => Stops BinaryOp.loosest
  | program => fun rest => rest = []
  | primary | arguments | parameters | binders | clause | statement => fun _ => True

end Phrase

/-- The word has a first token, and that token has the property. -/
def Token.Opens (P : Token → Prop) (w : List Token) : Prop := ∃ t u, w = t :: u ∧ P t

namespace Token.Opens

variable {P Q : Token → Prop} {w : List Token}

theorem append (h : Opens P w) (v : List Token) : Opens P (w ++ v) := by
  obtain ⟨t, u, rfl, ht⟩ := h
  exact ⟨t, u ++ v, rfl, ht⟩

theorem imp (h : Opens P w) (hPQ : ∀ t, P t → Q t) : Opens Q w := by
  obtain ⟨t, u, rfl, ht⟩ := h
  exact ⟨t, u, rfl, hPQ t ht⟩

end Token.Opens

namespace Derivation

open Token

/-- How words begin. A word is empty only where the phrase repeats something. -/
theorem begins {s : Phrase} {w : List Token} (d : Derivation s w) :
    (s.repeats = true ∧ w = []) ∨ Token.Opens s.Starts w := by
  induction d with
  | number _ ht | string _ ht | boolean _ ht | ident _ ht =>
      exact .inr ⟨_, _, rfl, .inl (by simp [ht])⟩
  | grouping _ _ ho | tuple _ _ _ ho => exact .inr ⟨_, _, rfl, .inl (by simp [ho])⟩
  | matching _ _ _ hk => exact .inr ⟨_, _, rfl, .inr hk⟩
  | called callee others ih =>
      have h := ih.resolve_left fun h => Bool.false_ne_true h.1
      exact .inr ((h.imp fun _ => Or.inl).append _)
  | unary t op ht => exact .inr ⟨_, _, rfl, .inr (by simp [ht])⟩
  | operations first others ih | call args others ih | nextExpression _ _ e others ih =>
      have h := ih.resolve_left fun h => Bool.false_ne_true h.1
      exact .inr (h.append _)
  | noOperation | noCall | noClause | noStatement => exact .inl ⟨rfl, rfl⟩
  | operation t op ht level => exact .inr ⟨_, _, rfl, op, ht, level⟩
  | noArguments _ _ ho | someArguments _ _ ho | noParameters _ _ ho | someParameters _ _ ho =>
      exact .inr ⟨_, _, rfl, ho⟩
  | lastExpression e ih =>
      have h := ih.resolve_left fun h => Bool.false_ne_true h.1
      exact .inr h
  | lastName _ ht | nextName _ _ ht => exact .inr ⟨_, _, rfl, ht⟩
  | enclosedBinders params ih =>
      have h := ih.resolve_left fun h => Bool.false_ne_true h.1
      exact .inr (h.imp fun _ => Or.inl)
  | oneBinder _ ht => exact .inr ⟨_, _, rfl, .inr ht⟩
  | blank _ _ _ _ hk | guarded _ _ _ hk => exact .inr ⟨_, _, rfl, .inl hk⟩
  | otherwise _ _ _ hk => exact .inr ⟨_, _, rfl, .inr hk⟩
  | remark _ ht => exact .inr ⟨_, _, rfl, .inl ht⟩
  | nextClause first others ih =>
      have h := ih.resolve_left fun h => Bool.false_ne_true h.1
      exact .inr ((h.imp fun _ => Or.inr).append _)
  | lastType _ ht | nextType _ _ ht => exact .inr ⟨_, _, rfl, ht⟩
  | sugared _ _ params result ih =>
      have h := ih.resolve_left fun h => Bool.false_ne_true h.1
      exact .inr ((h.imp fun _ => Or.inl).append _)
  | plain _ ha => exact .inr ⟨_, _, rfl, .inr ha⟩
  | comment _ ht => exact .inr ⟨_, _, rfl, .inl ht⟩
  | function _ _ _ _ ho => exact .inr ⟨_, _, rfl, .inr (.inl ho)⟩
  | define _ _ _ _ ht => exact .inr ⟨_, _, rfl, .inr (.inr (.inl ht))⟩
  | expression _ _ e ih =>
      have h := ih.resolve_left fun h => Bool.false_ne_true h.1
      exact .inr ((h.imp fun _ => Or.inr ∘ Or.inr ∘ Or.inr).append _)
  | nextStatement first others ih =>
      have h := ih.resolve_left fun h => Bool.false_ne_true h.1
      exact .inr (h.append _)

/-- A word of a phrase that repeats nothing starts with one of the tokens of the phrase. -/
theorem opens {s : Phrase} {w : List Token} (d : Derivation s w) (hs : s.repeats = false) :
    Token.Opens s.Starts w := by
  rcases d.begins with ⟨h, -⟩ | h
  · simp [hs] at h
  · exact h

/-- After the operators of a level comes what ends an operand of that level. -/
theorem stops_chain_append {n : Nat} {w : List Token} (d : Derivation (.chain n) w)
    {rest : List Token} (h : Stops (n + 1) rest) : Stops n (w ++ rest) := by
  rcases d.begins with ⟨-, rfl⟩ | ⟨t, u, rfl, op, ht, level⟩
  · exact h.mono (Nat.le_succ n)
  · exact stops_of_binaryOp? _ ht (by omega)

/-- The span of the token read last is where an argument list ends. -/
theorem lastSpan_arguments {w : List Token} (d : Derivation .arguments w) (previous : Span) :
    lastSpan previous w = d.meaning.2 := by
  cases d with
  | noArguments => rfl
  | someArguments => simp [meaning]

end Derivation

end Clausal
