import Clausal.Proofs.Grammar.Sequence

/-!
Reading ends. A reader that answers has stepped over tokens one after another, over one at least,
so a repetition uses up the items that are left; and the levels of operators, which call one
another without a step, are finitely many. The rounds that a reader is given stand for both: with
two more than there are items it answers or fails, on tokens in any order and with errors of the
lexer among them, and rounds beyond those change nothing. So a program has an answer, which is the
input's own, and no more statements than tokens.
-/

namespace Clausal

namespace Parser

variable {α : Type}

/-- A reader, by the rounds that it is given, makes progress and comes to an end. -/
structure Progresses (p : Nat → Parser α) : Prop where
  /-- Whatever the rounds, an answer is given behind one token at least, before the items that
  follow it. -/
  advances : ∀ rounds c a c', p rounds c = .ok a c' → ∃ t w, c.Advances (t :: w) c'
  /-- With two rounds more than there are items the reader answers or fails. -/
  answers : ∀ rounds c, c.items.length + 2 ≤ rounds → p rounds c ≠ .starved
  /-- More rounds than those change nothing. -/
  settles : ∀ rounds rounds' c, c.items.length + 2 ≤ rounds → rounds ≤ rounds' →
    p rounds' c = p rounds c

/-- A reader that is built with two rounds more than it needs for the items. -/
theorem Progresses.of_built {R : α → α → Prop} {p : Nat → Parser α}
    (h : ∀ {rounds rounds'}, rounds ≤ rounds' →
      Built .same True .anywhere (rounds - 1) true R (p rounds) (p rounds'))
    (heq : ∀ a b, R a b → a = b) : Progresses p := by
  have hanswers : ∀ rounds c, c.items.length + 2 ≤ rounds → p rounds c ≠ .starved :=
    fun rounds c hrounds => (h (Nat.le_refl rounds)).ne_starved (by omega)
  refine ⟨fun rounds c a c' hread => ?_, hanswers, fun rounds rounds' c hrounds hmore =>
    (h hmore).eq_of_ne_starved heq (hanswers rounds c hrounds)⟩
  obtain ⟨w, hadv, hstepped⟩ := (h (Nat.le_refl rounds)).advances hread
  obtain ⟨t, w, rfl⟩ := List.exists_cons_of_ne_nil (hstepped rfl)
  exact ⟨t, w, hadv⟩

theorem progresses_expression : Progresses expression :=
  .of_built (fun h => built_expression h (Nat.le_refl _)) fun _ _ => And.right

/-- A reader that is given the expressions in it with as many rounds as it has itself. -/
theorem Progresses.of_nested {R : α → α → Prop} {p : Parser Expr → Nat → Parser α}
    (h : ∀ {expr expr' : Parser Expr} {rounds rounds' n : Nat}, rounds ≤ rounds' → n ≤ rounds →
      Built .same True .anywhere (n - 1) true Likeness.same.expr expr expr' →
        Built .same True .anywhere n true R (p expr rounds) (p expr' rounds'))
    (heq : ∀ a b, R a b → a = b) : Progresses fun rounds => p (expression rounds) rounds :=
  .of_built (fun hrounds => h hrounds (by omega) (built_expression hrounds (by omega))) heq

/-- Each level asks the one below it first, down to the operators in front of a call. -/
theorem progresses_binary (level : Nat) :
    Progresses fun rounds => binary (expression rounds) rounds level :=
  .of_nested (fun hrounds hn hexpr => built_binary hexpr hrounds hn level) fun _ _ => And.right

theorem progresses_unary : Progresses fun rounds => unary (expression rounds) rounds :=
  progresses_binary 0

theorem progresses_primary : Progresses fun rounds => primary (expression rounds) rounds :=
  .of_nested (fun hrounds hn hexpr => built_primary hexpr hrounds (Nat.le_succ_of_le hn))
    fun _ _ => And.right

theorem progresses_arguments : Progresses fun rounds => arguments (expression rounds) rounds :=
  .of_nested (fun hrounds hn hexpr => built_arguments hexpr hrounds (Nat.le_succ_of_le hn))
    fun _ _ h => (forall₂_and_eq.mp h).2

theorem progresses_matchExpression :
    Progresses fun rounds => matchExpression (expression rounds) rounds :=
  .of_nested (fun hrounds hn hexpr => built_matchExpression hexpr hrounds (Nat.le_succ_of_le hn))
    fun _ _ => And.right

theorem progresses_clause : Progresses fun rounds => clause (expression rounds) :=
  .of_nested (fun _ _ hexpr => built_clause hexpr) fun _ _ => And.right

theorem progresses_parameters : Progresses parameters := by
  refine .of_built (fun hrounds => built_parameters hrounds (by omega)) fun params params' h => ?_
  rwa [Likeness.same, Likeness.placed, List.forall₂_eq_eq_eq] at h

theorem progresses_typeList : Progresses typeList :=
  .of_built (fun hrounds => built_typeList hrounds (Nat.sub_le _ 1)) fun _ _ => id

theorem progresses_statement : Progresses statement :=
  .of_built (fun hrounds => built_statement hrounds (Nat.le_refl _) trivial) fun _ _ => And.right

end Parser

namespace Program

/-- What a program is read to is the input's own answer: no number of rounds that is large enough
gives another one. An accepted program has no error among its items, and no more statements than
there are tokens. -/
def Settled (items : List Token.Item) (endOffset : Nat) : Except ParseError Program → Prop
  | .ok p => ∃ ts : List Token, items = ts.map .ok ∧ p.statements.length ≤ ts.length ∧
      ∃ c c', Cursor.ofItems items endOffset = .ok c ∧
        ∀ nesting rounds, items.length + 2 ≤ nesting → items.length + 2 ≤ rounds →
          Parser.statements nesting rounds c = .ok p.statements c'
  | .error e => Cursor.ofItems items endOffset = .error e ∨
      ∃ c, Cursor.ofItems items endOffset = .ok c ∧
        ∀ nesting rounds, items.length + 2 ≤ nesting → items.length + 2 ≤ rounds →
          Parser.statements nesting rounds c = .error e

/-- The statements that a program is read to, or its error, whatever the rounds. -/
theorem statements_settled {items : List Token.Item} {endOffset : Nat} {c : Cursor}
    (hstart : Cursor.ofItems items endOffset = .ok c) {nesting rounds : Nat}
    (hnesting : items.length + 2 ≤ nesting) (hrounds : items.length + 2 ≤ rounds) :
    Parser.statements nesting rounds c =
      Parser.statements (items.length + 2) (items.length + 2) c := by
  have hbuilt : Parser.Built .same True .anywhere 0 false _ _ (Parser.statements nesting rounds) :=
    Parser.built_statements hrounds hnesting (Nat.zero_le _) (Nat.zero_le _) trivial
  exact hbuilt.eq_of_ne_starved (fun _ _ h => (forall₂_and_eq.mp h).2) (read_ne_starved hstart)

theorem settled_ofItems (items : List Token.Item) (endOffset : Nat) :
    Settled items endOffset (ofItems items endOffset) := by
  cases hanswer : ofItems items endOffset with
  | ok p =>
      obtain ⟨c, c', hstart, hread⟩ := read_of_ofItems hanswer
      obtain ⟨ts, d, hitems, hmeaning⟩ := derivation_of_ofItems hanswer
      refine ⟨ts, hitems, hmeaning ▸ d.length_meaning_le, c, c', hstart, ?_⟩
      intro nesting rounds hnesting hrounds
      rw [statements_settled hstart hnesting hrounds, hread]
  | error e =>
      rcases ofItems_eq_error hanswer with hstart | ⟨c, hstart, hread⟩
      · exact .inl hstart
      · refine .inr ⟨c, hstart, fun nesting rounds hnesting hrounds => ?_⟩
        rw [statements_settled hstart hnesting hrounds, hread]

/-- Every reader of the grammar makes progress, and so reading a program comes to an end, on any
items. -/
theorem reading_progresses :
    Parser.Progresses Parser.statement ∧ Parser.Progresses Parser.expression ∧
      (∀ level, Parser.Progresses fun rounds =>
        Parser.binary (Parser.expression rounds) rounds level) ∧
      (Parser.Progresses fun rounds => Parser.unary (Parser.expression rounds) rounds) ∧
      (Parser.Progresses fun rounds => Parser.primary (Parser.expression rounds) rounds) ∧
      (Parser.Progresses fun rounds => Parser.arguments (Parser.expression rounds) rounds) ∧
      (Parser.Progresses fun rounds =>
        Parser.matchExpression (Parser.expression rounds) rounds) ∧
      (Parser.Progresses fun rounds => Parser.clause (Parser.expression rounds)) ∧
      Parser.Progresses Parser.parameters ∧ Parser.Progresses Parser.typeList ∧
      ∀ items endOffset, Settled items endOffset (ofItems items endOffset) :=
  ⟨Parser.progresses_statement, Parser.progresses_expression, Parser.progresses_binary,
    Parser.progresses_unary, Parser.progresses_primary, Parser.progresses_arguments,
    Parser.progresses_matchExpression, Parser.progresses_clause, Parser.progresses_parameters,
    Parser.progresses_typeList, settled_ofItems⟩

end Program

end Clausal
