import Clausal.Grammar.Program
import Mathlib.Data.List.Forall2

/-!
How the readers are put together. Every reader is made of steps over single tokens, of looks at the
cursor, and of failures that it states itself; the spans that it hands on are those that it looked
at, merged at most, and its rounds are used up no faster than the items. This is said once for each
reader. What follows for all of them alike is then a matter of the steps: what a reader keeps, what
it does at other places, with more rounds and on a longer input, and that it comes to an end.
-/

namespace Clausal

/-- When spans are alike, and when trees are. Trees are alike that are made in one way of parts that
are alike; types and texts are the same in both. -/
structure Likeness where
  span : Span → Span → Prop
  ident : Ident → Ident → Prop
  expr : Expr → Expr → Prop
  clause : Clause → Clause → Prop
  function : Match → Match → Prop
  statement : Statement → Statement → Prop
  merge {a a' b b' : Span} : span a a' → span b b' → span (a.merge b) (a'.merge b')
  spanOf {e e' : Expr} : expr e e' → span e.span e'.span
  paramNames {m m' : Match} : function m m' → m.paramNames = m'.paramNames
  binder (name : String) {s s' : Span} : span s s' → ident ⟨name, s⟩ ⟨name, s'⟩
  number (value : Float) (raw : String) {s s' : Span} :
    span s s' → expr (.number value raw s) (.number value raw s')
  string (value raw : String) {s s' : Span} :
    span s s' → expr (.string value raw s) (.string value raw s')
  boolean (value : Bool) (raw : String) {s s' : Span} :
    span s s' → expr (.boolean value raw s) (.boolean value raw s')
  name (name : String) {s s' : Span} : span s s' → expr (.ident name s) (.ident name s')
  tuple {es es' : List Expr} {s s' : Span} :
    List.Forall₂ expr es es' → span s s' → expr (.tuple es s) (.tuple es' s')
  binary (op : BinaryOp) {a a' b b' : Expr} {s s' : Span} :
    expr a a' → expr b b' → span s s' → expr (.binary op a b s) (.binary op a' b' s')
  unary (op : UnaryOp) {a a' : Expr} {s s' : Span} :
    expr a a' → span s s' → expr (.unary op a s) (.unary op a' s')
  call {f f' : Expr} {args args' : List Expr} {s s' : Span} :
    expr f f' → List.Forall₂ expr args args' → span s s' →
      expr (.call f args s) (.call f' args' s')
  matching {params params' : List Ident} {cases cases' : List Clause} {s s' : Span} :
    List.Forall₂ ident params params' → List.Forall₂ clause cases cases' → span s s' →
      expr (.matching params cases s) (.matching params' cases' s')
  guarded {a a' b b' : Expr} {s s' : Span} :
    expr a a' → expr b b' → span s s' → clause (.guarded a b s) (.guarded a' b' s')
  catchAll {e e' : Expr} {s s' : Span} :
    expr e e' → span s s' → clause (.catchAll e s) (.catchAll e' s')
  always {params params' : List Ident} {e e' : Expr} :
    List.Forall₂ ident params params' → expr e e' →
      function (.always params e) (.always params' e')
  ofExpr {e e' : Expr} : expr e e' → function (.ofExpr e) (.ofExpr e')
  declaration (name : String) (types : List String) (returnType : String) {m m' : Match}
    {s s' : Span} : function m m' → span s s' →
      statement (.function ⟨name, types, returnType, m.paramNames, m⟩ s)
        (.function ⟨name, types, returnType, m'.paramNames, m'⟩ s')
  define (typeName name : String) {e e' : Expr} {s s' : Span} :
    expr e e' → span s s' → statement (.define typeName name e s) (.define typeName name e' s')
  expression {e e' : Expr} {s s' : Span} :
    expr e e' → span s s' → statement (.expression e s) (.expression e' s')
  comment (text : String) {s s' : Span} :
    span s s' → statement (.comment text s) (.comment text s')

/-- Tokens of one kind and one text, at places that are alike. -/
inductive Likeness.Tokens (L : Likeness) : Token → Token → Prop
  | mk (kind : Token.Kind) (text : String) {s s' : Span} (h : L.span s s') :
      L.Tokens ⟨kind, text, s⟩ ⟨kind, text, s'⟩

namespace Parser

/-- What is known of the cursor where a reader starts. -/
inductive Start
  | anywhere
  | onToken
  | atEnd

/-- The first reader and one that is put together in the same way, with at least as many rounds.
`L` says how the spans are alike that are looked at, and `R` how the values are alike then. With
fewer than `n` items left the first reader has rounds enough, and where `steps` is true it does not
answer without a step. Only where `M` holds a list of types may be found empty, which is the one
failure that may be about tokens before the current one. -/
inductive Built (L : Likeness) (M : Prop) :
    Start → Nat → Bool → {α : Type} → (α → α → Prop) → Parser α → Parser α → Prop
  | pure {start : Start} {n : Nat} {α : Type} {R : α → α → Prop} {a b : α} (h : R a b) :
      Built L M start n false R (Pure.pure a) (Pure.pure b)
  /-- A step leaves one item less to what comes after it. -/
  | bind {start : Start} {n m : Nat} {steps : Bool} {α β : Type} {R : α → α → Prop}
      {R' : β → β → Prop} {p q : Parser α} {f g : α → Parser β}
      (first : Built L M start n steps R p q) (enough : n ≤ m + steps.toNat)
      (rest : ∀ a b, R a b → Built L M .anywhere m false R' (f a) (g b)) :
      Built L M start n steps R' (p >>= f) (q >>= g)
  /-- A look at the current token that tells nothing about its place. -/
  | test {start : Start} {n : Nat} {steps : Bool} {α β : Type} {R : β → β → Prop}
      {v : Option Token → α} {f g : α → Parser β}
      (unplaced : ∀ kind text s s', v (some ⟨kind, text, s⟩) = v (some ⟨kind, text, s'⟩))
      (rest : ∀ a, Built L M start n steps R (f a) (g a)) :
      Built L M start n steps R (look (fun c => v c.current) >>= f)
        (look (fun c => v c.current) >>= g)
  | current {start : Start} {n : Nat} {steps : Bool} {β : Type} {R : β → β → Prop}
      {f g : Option Token → Parser β} (ended : Built L M .atEnd n steps R (f none) (g none))
      (token : ∀ t t', L.Tokens t t' → Built L M .onToken n steps R (f (some t)) (g (some t'))) :
      Built L M start n steps R (look Cursor.current >>= f) (look Cursor.current >>= g)
  | currentSpan {start : Start} {n : Nat} {steps : Bool} {β : Type} {R : β → β → Prop}
      {f g : Span → Parser β}
      (rest : ∀ s s', L.span s s' → Built L M start n steps R (f s) (g s')) :
      Built L M start n steps R (look Cursor.currentSpan >>= f) (look Cursor.currentSpan >>= g)
  | previous {start : Start} {n : Nat} {steps : Bool} {β : Type} {R : β → β → Prop}
      {f g : Span → Parser β}
      (rest : ∀ s s', L.span s s' → Built L M start n steps R (f s) (g s')) :
      Built L M start n steps R (look Cursor.previous >>= f) (look Cursor.previous >>= g)
  | consume {start : Start} {n : Nat} {steps : Bool} :
      Built L M start n steps L.Tokens consume consume
  /-- The current token is refused, and not by the lexer. -/
  | refuse {n : Nat} {steps : Bool} {α : Type} {R : α → α → Prop} {cause : ParseError.Cause}
      {s s' : Span} (stated : ∀ x, cause ≠ .lexical x) (place : L.span s s') :
      Built L M .onToken n steps R (fail ⟨cause, s, none⟩) (fail ⟨cause, s', none⟩)
  | endTooEarly {n : Nat} {steps : Bool} {α : Type} {R : α → α → Prop}
      {expected : ParseError.Expectation} {s s' : Span} (place : L.span s s') :
      Built L M .atEnd n steps R (fail ⟨.unexpectedEnd expected, s, none⟩)
        (fail ⟨.unexpectedEnd expected, s', none⟩)
  | noType {start : Start} {n : Nat} {steps : Bool} {α : Type} {R : α → α → Prop} {s s' : Span}
      (h : M) (place : L.span s s') :
      Built L M start n steps R (fail ⟨.missingReturnType, s, none⟩)
        (fail ⟨.missingReturnType, s', none⟩)
  | starve {start : Start} {steps : Bool} {α : Type} {R : α → α → Prop} {q : Parser α} :
      Built L M start 0 steps R starve q
  | within {start : Start} {n : Nat} {steps : Bool} {α : Type} {R : α → α → Prop}
      {p q : Parser α} (context : ParseError.Context) (inner : Built L M start n steps R p q) :
      Built L M start n steps R (within context p) (within context q)
  | weaken {start start' : Start} {n m : Nat} {steps steps' : Bool} {α : Type}
      {R R' : α → α → Prop} {p q : Parser α} (h : Built L M start n steps R p q)
      (place : start = .anywhere ∨ start = start') (fewer : m ≤ n)
      (fallback : steps' = true → steps = true) (mono : ∀ a b, R a b → R' a b) :
      Built L M start' m steps' R' p q

variable {L : Likeness} {M : Prop} {start : Start} {n m : Nat} {steps : Bool} {α β : Type}
  {R R' : α → α → Prop} {p p' q q' : Parser α} {kind : Token.Kind} {text : String}
  {rounds rounds' : Nat}

namespace Built

theorem ite {b : Prop} [Decidable b] (hp : Built L M start n steps R p q)
    (hp' : Built L M start n steps R p' q') :
    Built L M start n steps R (if b then p else p') (if b then q else q') := by
  split
  · exact hp
  · exact hp'

/-- A reader that has rounds enough for some number of items has enough for fewer. -/
theorem fewer (h : Built L M start n steps R p q) (hle : m ≤ n) : Built L M start m steps R p q :=
  h.weaken (.inr rfl) hle id fun _ _ => id

/-- A reader that may start anywhere. -/
theorem started (h : Built L M .anywhere n steps R p q) : Built L M start n steps R p q :=
  h.weaken (.inl rfl) (Nat.le_refl n) id fun _ _ => id

/-- That the reader steps may be forgotten. -/
theorem idle (h : Built L M start n true R p q) : Built L M start n steps R p q :=
  h.weaken (.inr rfl) (Nat.le_refl n) (fun _ => rfl) fun _ _ => id

section Bind

variable {S : β → β → Prop} {f g : α → Parser β}

/-- What comes after a step has one item less before it. -/
theorem step (first : Built L M start n true R p q)
    (rest : ∀ a b, R a b → Built L M .anywhere (n - 1) false S (f a) (g b)) :
    Built L M start n steps S (p >>= f) (q >>= g) :=
  (first.bind (by simp only [Bool.toNat_true]; omega) rest).idle

/-- What comes after a step may do without the item less. -/
theorem andThen (first : Built L M start n true R p q)
    (rest : ∀ a b, R a b → Built L M .anywhere n false S (f a) (g b)) :
    Built L M start n steps S (p >>= f) (q >>= g) :=
  first.step fun a b hab => (rest a b hab).fewer (Nat.sub_le n 1)

/-- A reader that may answer without a step, and what comes after it. -/
theorem followed (first : Built L M start n false R p q)
    (rest : ∀ a b, R a b → Built L M .anywhere n false S (f a) (g b)) :
    Built L M start n false S (p >>= f) (q >>= g) :=
  first.bind (Nat.le_refl n) rest

end Bind

end Built

section Tokens

variable {S : β → β → Prop} {f g : Bool → Parser β}

theorem built_check (rest : ∀ found, Built L M start n steps S (f found) (g found)) :
    Built L M start n steps S (check kind >>= f) (check kind >>= g) :=
  .test (v := fun current => current.any fun t : Token => t.kind == kind) (fun _ _ _ _ => rfl) rest

theorem built_checkText (rest : ∀ found, Built L M start n steps S (f found) (g found)) :
    Built L M start n steps S (checkText kind text >>= f) (checkText kind text >>= g) :=
  .test (v := fun current => current.any fun t : Token => t.is kind text) (fun _ _ _ _ => rfl) rest

/-- The failure where another token is wanted, by the current token and its place. -/
private def mismatched (kind : Token.Kind) (spelling : Option String) :
    Option Token → Span → ParseError
  | some t, _ => ⟨.expectedToken kind spelling t.kind t.text, t.span, none⟩
  | none, place => ⟨.unexpectedEnd (spelling.elim (.kind kind) .spelling), place, none⟩

theorem built_mismatch (kind : Token.Kind) (spelling : Option String) :
    Built L M start n steps R (look (·.mismatch kind spelling) >>= fail)
      (look (·.mismatch kind spelling) >>= fail) := by
  let reader : Parser α := look Cursor.current >>= fun current =>
    look Cursor.currentSpan >>= fun place => fail (mismatched kind spelling current place)
  have hreader : look (·.mismatch kind spelling) >>= fail = reader := by
    funext ⟨current, previous, pending, stop⟩
    cases current <;> cases spelling <;> rfl
  rw [hreader]
  refine .current (.currentSpan fun _ _ hplace => .endTooEarly hplace) ?_
  rintro _ _ ⟨kind, text, hs⟩
  exact .currentSpan fun _ _ _ => .refuse (by simp) hs

/-- To expect a token is to look at it, and to take it or to say what was found in its place. -/
theorem expect_eq (kind : Token.Kind) : expect kind = check kind >>= fun found =>
    if found then consume else look (·.mismatch kind none) >>= fail := by
  funext c
  simp only [expect, Cursor.expect, check, look, bind_apply, Reply.bind]
  cases c.check kind <;> rfl

theorem expectText_eq (kind : Token.Kind) (text : String) :
    expectText kind text = checkText kind text >>= fun found =>
      if found then consume else look (·.mismatch kind (some text)) >>= fail := by
  funext c
  simp only [expectText, Cursor.expectText, checkText, look, bind_apply, Reply.bind]
  cases c.checkText kind text <;> rfl

theorem built_expect (kind : Token.Kind) :
    Built L M start n steps L.Tokens (expect kind) (expect kind) := by
  rw [expect_eq]
  exact built_check fun _ => .ite .consume (built_mismatch kind none)

theorem built_expectText (kind : Token.Kind) (text : String) :
    Built L M start n steps L.Tokens (expectText kind text) (expectText kind text) := by
  rw [expectText_eq]
  exact built_checkText fun _ => .ite .consume (built_mismatch kind (some text))

/-- A token is eaten by a step over it, if it is there. -/
theorem eat_bind_eq (kind : Token.Kind) (p p' : Parser α) :
    (eat kind >>= fun eaten => if eaten then p else p') =
      check kind >>= fun found => if found then consume >>= fun _ => p else p' := by
  funext c
  simp only [eat, Cursor.eat, check, look, bind_apply, Reply.bind]
  cases c.check kind with
  | false => rfl
  | true =>
      simp only [if_pos, consume, bind_apply]
      obtain ⟨result, c'⟩ := c.consume
      cases result <;> rfl

/-- Where a token is eaten, there is one item less before what follows. -/
theorem built_eat (hp : Built L M .anywhere (n - 1) false R p q)
    (hp' : Built L M start n steps R p' q') :
    Built L M start n steps R (eat kind >>= fun eaten => if eaten then p else p')
      (eat kind >>= fun eaten => if eaten then q else q') := by
  rw [eat_bind_eq, eat_bind_eq]
  exact built_check fun _ => .ite (Built.consume.step fun _ _ _ => hp) hp'

end Tokens

/-- The second reader is given at least as many rounds. Where the first one has a round left, so has
the second. -/
@[elab_as_elim] theorem rounds_induction {C : (n m : Nat) → n ≤ m → Prop}
    (starved : ∀ m (h : 0 ≤ m), C 0 m h)
    (round : ∀ n m (h : n ≤ m), C n m h → C (n + 1) (m + 1) (Nat.succ_le_succ h))
    {n m : Nat} (h : n ≤ m) : C n m h := by
  induction n generalizing m with
  | zero => exact starved m h
  | succ n ih =>
      obtain ⟨m, rfl⟩ := Nat.exists_eq_succ_of_ne_zero (Nat.ne_of_gt (Nat.zero_lt_of_lt h))
      exact round n m (Nat.le_of_succ_le_succ h) (ih (Nat.le_of_succ_le_succ h))

section Lists

/-- A list is read by as many rounds as it has members, each of which steps on. -/
theorem built_commaSeparated (hp : Built L M .anywhere n true R p q) (hrounds : rounds ≤ rounds')
    (hn : n ≤ rounds) :
    Built L M start n steps (List.Forall₂ R) (commaSeparated p rounds)
      (commaSeparated q rounds') := by
  induction hrounds using rounds_induction generalizing start n steps with
  | starved =>
      obtain rfl := Nat.le_zero.mp hn
      exact .starve
  | round rounds rounds' hrounds ih =>
      refine hp.started.step fun a b hab => built_eat ?_ ?_
      · refine (ih (hp.fewer (by omega)) (by omega)).andThen fun as bs habs => ?_
        exact .pure (.cons hab habs)
      · exact .pure (.cons hab .nil)

theorem built_commaSeparatedOrNone (hp : Built L M .anywhere n true R p q)
    (hrounds : rounds ≤ rounds') (hn : n ≤ rounds) :
    Built L M start n false (List.Forall₂ R) (commaSeparatedOrNone p rounds)
      (commaSeparatedOrNone q rounds') :=
  built_check fun _ => .ite (.pure .nil) (built_commaSeparated hp hrounds hn)

theorem built_ident : Built L M start n steps L.ident ident ident := by
  refine (built_expect .identifier).andThen ?_
  rintro _ _ ⟨_, name, hs⟩
  exact .pure (L.binder name hs)

theorem built_parameters (hrounds : rounds ≤ rounds') (hn : n ≤ rounds + 1) :
    Built L M start n steps (List.Forall₂ L.ident) (parameters rounds) (parameters rounds') := by
  refine .within _ <| (built_expect .leftParen).step fun _ _ _ => ?_
  refine (built_commaSeparatedOrNone built_ident hrounds (by omega)).followed ?_
  intro params params' hparams
  exact (built_expect .rightParen).andThen fun _ _ _ => .pure hparams

theorem built_binders (hrounds : rounds ≤ rounds') (hn : n ≤ rounds + 1) :
    Built L M start n steps (List.Forall₂ L.ident) (binders rounds) (binders rounds') := by
  refine built_check fun _ => .ite (built_parameters hrounds hn) ?_
  exact built_ident.andThen fun _ _ hparam => .pure (.cons hparam .nil)

end Lists

/-- Whether a token is read as it is does not depend on its place; it is refused only as a
number. -/
theorem atom?_alike {s s' : Span} (hs : L.span s s') (kind : Token.Kind) (text : String) :
    (atom? ⟨kind, text, s⟩ = none ∧ atom? ⟨kind, text, s'⟩ = none) ∨
      (∃ e e', atom? ⟨kind, text, s⟩ = some (.ok e) ∧ atom? ⟨kind, text, s'⟩ = some (.ok e') ∧
        L.expr e e') ∨
      (atom? ⟨kind, text, s⟩ = some (.error ⟨.invalidNumber text, s, none⟩) ∧
        atom? ⟨kind, text, s'⟩ = some (.error ⟨.invalidNumber text, s', none⟩)) := by
  cases kind with
  | number =>
      simp only [atom?]
      cases Literal.numberValue? text with
      | some value => exact .inr (.inl ⟨_, _, rfl, rfl, L.number value text hs⟩)
      | none => exact .inr (.inr ⟨rfl, rfl⟩)
  | string => exact .inr (.inl ⟨_, _, rfl, rfl, L.string _ text hs⟩)
  | boolean => exact .inr (.inl ⟨_, _, rfl, rfl, L.boolean _ text hs⟩)
  | identifier => exact .inr (.inl ⟨_, _, rfl, rfl, L.name text hs⟩)
  | _ => exact .inl ⟨rfl, rfl⟩

section Expressions

variable {expr expr' : Parser Expr}

theorem built_catchAllFrom (hexpr : Built L M .anywhere n true L.expr expr expr') {s s' : Span}
    (hstart : L.span s s') :
    Built L M start n steps L.clause (clause.catchAllFrom expr s)
      (clause.catchAllFrom expr' s') := by
  refine (built_expect .arrow).andThen fun _ _ _ => hexpr.andThen fun body body' hbody => ?_
  refine (built_expect .semicolon).andThen ?_
  rintro _ _ ⟨_, _, hstop⟩
  exact .pure (L.catchAll hbody (L.merge hstart hstop))

-- An expression stands behind a token of what it is a part of.
variable (hexpr : Built L M .anywhere (n - 1) true L.expr expr expr')

include hexpr

/-- What follows the keyword of a clause is read by one of three readers, the same one on both
sides. -/
theorem built_clause : Built L M start n steps L.clause (clause expr) (clause expr') := by
  refine .currentSpan fun s s' hstart => built_checkText fun _ => .ite ?_ ?_
  · refine Built.consume.step fun _ _ _ => built_checkText fun _ => .ite ?_ ?_
    · exact Built.consume.andThen fun _ _ _ => built_catchAllFrom hexpr hstart
    · refine hexpr.andThen fun condition condition' hcondition => ?_
      refine (built_expect .arrow).andThen fun _ _ _ => hexpr.andThen fun body body' hbody => ?_
      refine (built_expect .semicolon).andThen ?_
      rintro _ _ ⟨_, _, hstop⟩
      exact .pure (L.guarded hcondition hbody (L.merge hstart hstop))
  · refine built_checkText fun _ => .ite ?_ ?_
    · exact Built.consume.step fun _ _ _ => built_catchAllFrom hexpr hstart
    · refine .current (.endTooEarly hstart) ?_
      rintro _ _ ⟨kind, text, hs⟩
      exact .refuse (by simp) hs

theorem built_clauses (hrounds : rounds ≤ rounds') (hn : n ≤ rounds) :
    Built L M start n false (List.Forall₂ L.clause) (clauses expr rounds)
      (clauses expr' rounds') := by
  induction hrounds using rounds_induction generalizing start n with
  | starved =>
      obtain rfl := Nat.le_zero.mp hn
      exact .starve
  | round rounds rounds' hrounds ih =>
      have hlater : Built L M .anywhere (n - 1) false (List.Forall₂ L.clause)
          (clauses expr rounds) (clauses expr' rounds') :=
        ih (hexpr.fewer (by omega)) (by omega)
      refine built_check fun _ => .ite (.pure .nil) (built_eat hlater ?_)
      refine (Built.within _ (built_clause hexpr)).step fun first first' hfirst => ?_
      exact hlater.followed fun others others' hothers => .pure (.cons hfirst hothers)

theorem built_matchExpression (hrounds : rounds ≤ rounds') (hn : n ≤ rounds + 1) :
    Built L M start n steps L.expr (matchExpression expr rounds)
      (matchExpression expr' rounds') := by
  refine .within _ <| (built_expect .keyword).step ?_
  rintro _ _ ⟨_, _, hstart⟩
  refine (built_binders hrounds (by omega)).andThen fun params params' hparams => ?_
  refine (built_expect .leftBrace).andThen fun _ _ _ => ?_
  refine (built_clauses (hexpr.fewer (by omega)) hrounds (by omega)).followed ?_
  intro cases cases' hcases
  refine (built_expect .rightBrace).andThen ?_
  rintro _ _ ⟨_, _, hstop⟩
  exact .pure (L.matching hparams hcases (L.merge hstart hstop))

theorem built_parenthesized (hrounds : rounds ≤ rounds') (hn : n ≤ rounds + 1) :
    Built L M start n steps L.expr (parenthesized expr rounds) (parenthesized expr' rounds') := by
  refine .within _ <| (built_expect .leftParen).step ?_
  rintro _ _ ⟨_, _, hstart⟩
  refine hexpr.andThen fun first first' hfirst => built_eat ?_ ?_
  · have hothers : Built L M .anywhere (n - 1 - 1) true (List.Forall₂ L.expr)
        (commaSeparated expr rounds) (commaSeparated expr' rounds') :=
      built_commaSeparated (hexpr.fewer (by omega)) hrounds (by omega)
    refine hothers.andThen fun others others' hothers => (built_expect .rightParen).andThen ?_
    rintro _ _ ⟨_, _, hstop⟩
    exact .pure (L.tuple (.cons hfirst hothers) (L.merge hstart hstop))
  · exact (built_expect .rightParen).andThen fun _ _ _ => .pure hfirst

theorem built_primary (hrounds : rounds ≤ rounds') (hn : n ≤ rounds + 1) :
    Built L M start n steps L.expr (primary expr rounds) (primary expr' rounds') := by
  refine .current (.currentSpan fun _ _ hplace => .endTooEarly hplace) ?_
  rintro _ _ ⟨kind, text, hs⟩
  refine .ite (built_matchExpression hexpr hrounds hn) <|
    .ite (built_parenthesized hexpr hrounds hn) ?_
  rcases atom?_alike hs kind text with ⟨h, h'⟩ | ⟨e, e', h, h', he⟩ | ⟨h, h'⟩
  · rw [h, h']
    exact .refuse (by simp) hs
  · rw [h, h']
    exact Built.consume.andThen fun _ _ _ => .pure he
  · rw [h, h']
    exact .refuse (by simp) hs

theorem built_arguments (hrounds : rounds ≤ rounds') (hn : n ≤ rounds + 1) :
    Built L M start n steps (List.Forall₂ L.expr) (arguments expr rounds)
      (arguments expr' rounds') := by
  refine .within _ <| (built_expect .leftParen).step fun _ _ _ => ?_
  refine (built_commaSeparatedOrNone hexpr hrounds (by omega)).followed fun args args' hargs => ?_
  exact (built_expect .rightParen).andThen fun _ _ _ => .pure hargs

/-- A list of calls goes round once for each opening bracket. -/
theorem built_calls (hrounds : rounds ≤ rounds') (hn : n ≤ rounds) {callee callee' : Expr}
    (hcallee : L.expr callee callee') :
    Built L M start n false L.expr (calls expr rounds callee) (calls expr' rounds' callee') := by
  induction hrounds using rounds_induction generalizing start n callee callee' with
  | starved =>
      obtain rfl := Nat.le_zero.mp hn
      exact .starve
  | round rounds rounds' hrounds ih =>
      refine built_check fun _ => .ite ?_ (.pure hcallee)
      refine (built_arguments hexpr hrounds hn).step fun args args' hargs => ?_
      refine .previous fun stop stop' hstop => ih (hexpr.fewer (by omega)) (by omega) ?_
      exact L.call hcallee hargs (L.merge (L.spanOf hcallee) hstop)

theorem built_unary (hrounds : rounds ≤ rounds') (hn : n ≤ rounds) :
    Built L M start n steps L.expr (unary expr rounds) (unary expr' rounds') := by
  induction hrounds using rounds_induction generalizing start n steps with
  | starved =>
      obtain rfl := Nat.le_zero.mp hn
      exact .starve
  | round rounds rounds' hrounds ih =>
      refine .test (v := fun current => current.bind (·.unaryOp?)) (fun _ _ _ _ => rfl) fun op => ?_
      cases op with
      | some op =>
          refine Built.consume.step ?_
          rintro _ _ ⟨_, _, hstart⟩
          refine (ih (hexpr.fewer (by omega)) (by omega)).andThen ?_
          intro operand operand' hoperand
          exact .pure (L.unary op hoperand (L.merge hstart (L.spanOf hoperand)))
      | none =>
          refine (built_primary hexpr hrounds hn).step fun callee callee' hcallee => ?_
          exact built_calls (hexpr.fewer (by omega)) hrounds (by omega) hcallee

omit hexpr in
/-- A chain goes round once for each operator, and each operand stands behind a step. -/
theorem built_chain {operand operand' : Parser Expr}
    (hoperand : Built L M .anywhere (n - 1) true L.expr operand operand') (level : Nat)
    (hrounds : rounds ≤ rounds') (hn : n ≤ rounds) {left left' : Expr}
    (hleft : L.expr left left') :
    Built L M start n false L.expr (chain operand level rounds left)
      (chain operand' level rounds' left') := by
  induction hrounds using rounds_induction generalizing start n left left' with
  | starved =>
      obtain rfl := Nat.le_zero.mp hn
      exact .starve
  | round rounds rounds' hrounds ih =>
      refine .test (v := fun current => current.bind fun t =>
        t.binaryOp?.filter fun op => op.precedence == level) (fun _ _ _ _ => rfl) fun op => ?_
      cases op with
      | some op =>
          refine Built.consume.step fun _ _ _ => hoperand.andThen fun right right' hright => ?_
          refine ih (hoperand.fewer (by omega)) (by omega) ?_
          exact L.binary op hleft hright (L.merge (L.spanOf hleft) (L.spanOf hright))
      | none => exact .pure hleft

/-- A level of precedence is an operand of the level below and the chain behind it. -/
theorem built_binary (hrounds : rounds ≤ rounds') (hn : n ≤ rounds) (level : Nat) :
    Built L M start n steps L.expr (binary expr rounds level) (binary expr' rounds' level) := by
  induction level generalizing start steps with
  | zero => exact built_unary hexpr hrounds hn
  | succ level ih =>
      refine ih.andThen fun left left' hleft => ?_
      exact built_chain (ih.fewer (Nat.sub_le n 1)) (level + 1) hrounds hn hleft

omit hexpr in
/-- The levels of operators call one another without a step, so an expression is given two rounds
more than there are items. -/
theorem built_expression (hrounds : rounds ≤ rounds') (hn : n ≤ rounds - 1) :
    Built L M start n steps L.expr (expression rounds) (expression rounds') := by
  induction hrounds using rounds_induction generalizing start n steps with
  | starved =>
      obtain rfl := Nat.le_zero.mp hn
      exact .starve
  | round rounds rounds' hrounds ih =>
      exact built_binary (ih (by omega)) hrounds hn BinaryOp.loosest

end Expressions

section Statements

/-- A function declaration behind its list of types, as the reader of declarations goes on. -/
def declared (rounds : Nat) (types : List String) (returnType : String) (first : Span) :
    Parser Statement := do
  let name ← expect .identifier
  let body ← functionBody rounds
  let stop ← expect .semicolon
  return .function ⟨name.text, types.dropLast, returnType, body.paramNames, body⟩
    (first.merge stop.span)

theorem built_typeName : Built L M start n steps Eq typeName typeName := by
  refine .test (v := fun current => current.any fun t => [.typeName, .identifier].contains t.kind)
    (fun _ _ _ _ => rfl) fun found => ?_
  refine .ite ?_ ?_
  · refine Built.consume.andThen ?_
    rintro _ _ ⟨_, _, _⟩
    exact .pure rfl
  · refine (built_expect .typeName).andThen ?_
    rintro _ _ ⟨_, _, _⟩
    exact .pure rfl

theorem built_typeNames (hrounds : rounds ≤ rounds') (hn : n ≤ rounds) :
    Built L M start n false Eq (typeNames rounds) (typeNames rounds') := by
  refine built_checkText fun _ => .ite (.pure rfl) ?_
  have hnames : Built L M start n false (List.Forall₂ Eq) (commaSeparated typeName rounds)
      (commaSeparated typeName rounds') :=
    built_commaSeparated built_typeName hrounds hn
  rwa [List.forall₂_eq_eq_eq] at hnames

theorem built_typeList (hrounds : rounds ≤ rounds') (hn : n ≤ rounds) :
    Built L M start n steps Eq (typeList rounds) (typeList rounds') := by
  refine .within _ <| (built_expectText .compareOp "<").andThen fun _ _ _ => ?_
  refine (built_typeNames hrounds hn).followed fun names names' hnames => ?_
  exact (built_expectText .compareOp ">").andThen fun _ _ _ => .pure hnames

variable (hrounds : rounds ≤ rounds') (hn : n ≤ rounds - 1)

include hrounds hn

theorem built_functionBody :
    Built L M start n steps L.function (functionBody rounds) (functionBody rounds') := by
  refine built_check fun _ => .ite ?_ ?_
  · refine (built_parameters hrounds (by omega)).andThen fun params params' hparams => ?_
    refine (built_expect .assign).andThen fun _ _ _ => ?_
    exact (built_expression hrounds hn).andThen fun _ _ hbody => .pure (L.always hparams hbody)
  · refine (built_expect .assign).andThen fun _ _ _ => ?_
    exact (built_expression hrounds hn).andThen fun _ _ hbody => .pure (L.ofExpr hbody)

/-- The part of a function declaration behind its list of types, one of which is there. -/
theorem built_declared (types : List String) (returnType : String) {first first' : Span}
    (hfirst : L.span first first') :
    Built L M start n steps L.statement (declared rounds types returnType first)
      (declared rounds' types returnType first') := by
  refine (built_expect .identifier).andThen ?_
  rintro _ _ ⟨_, name, _⟩
  refine (built_functionBody hrounds hn).andThen fun body body' hbody => ?_
  refine (built_expect .semicolon).andThen ?_
  rintro _ _ ⟨_, _, hstop⟩
  exact .pure (L.declaration name types.dropLast returnType hbody (L.merge hfirst hstop))

/-- Only a declaration fails where its list of types is found empty, so only here `M` is asked
for. -/
theorem built_functionDeclaration (hM : M) :
    Built L M start n steps L.statement (functionDeclaration rounds)
      (functionDeclaration rounds') := by
  refine .within _ <| .currentSpan fun first first' hfirst => ?_
  refine (built_typeList hrounds (by omega)).andThen ?_
  rintro types _ rfl
  cases types.getLast? with
  | none => exact .previous fun stop stop' hstop => .noType hM (L.merge hfirst hstop)
  | some returnType => exact built_declared hrounds hn types returnType hfirst

theorem built_definition :
    Built L M start n steps L.statement (definition rounds) (definition rounds') := by
  refine .within _ <| (built_expect .typeName).andThen ?_
  rintro _ _ ⟨_, typeName, hfirst⟩
  refine (built_expect .identifier).andThen ?_
  rintro _ _ ⟨_, name, _⟩
  refine (built_expect .assign).andThen fun _ _ _ => ?_
  refine (built_expression hrounds hn).andThen fun init init' hinit => ?_
  refine (built_expect .semicolon).andThen ?_
  rintro _ _ ⟨_, _, hstop⟩
  exact .pure (L.define typeName name hinit (L.merge hfirst hstop))

theorem built_expressionStatement :
    Built L M start n steps L.statement (expressionStatement rounds)
      (expressionStatement rounds') := by
  refine .within _ <| (built_expression hrounds hn).andThen fun e e' he => ?_
  refine (built_expect .semicolon).andThen ?_
  rintro _ _ ⟨_, _, hstop⟩
  exact .pure (L.expression he (L.merge (L.spanOf he) hstop))

/-- A statement is one of four readers, which its first token tells apart. -/
theorem built_statement (hM : M) :
    Built L M start n steps L.statement (statement rounds) (statement rounds') := by
  refine built_check fun _ => .ite ?_ (built_checkText fun _ => .ite ?_ ?_)
  · refine Built.consume.andThen ?_
    rintro _ _ ⟨_, text, hs⟩
    exact .pure (L.comment text hs)
  · exact built_functionDeclaration hrounds hn hM
  · exact built_check fun _ => .ite (built_definition hrounds hn)
      (built_expressionStatement hrounds hn)

omit hn in
/-- A statement steps over an item, so the rounds fall no faster than the items. -/
theorem built_statements {nesting nesting' : Nat} (hnesting : nesting ≤ nesting')
    (hn : n ≤ nesting - 1) (hn' : n ≤ rounds) (hM : M) :
    Built L M start n false (List.Forall₂ L.statement) (statements nesting rounds)
      (statements nesting' rounds') := by
  induction hrounds using rounds_induction generalizing start n with
  | starved =>
      obtain rfl := Nat.le_zero.mp hn'
      exact .starve
  | round rounds rounds' hrounds ih =>
      refine .test (v := fun current => current.isNone) (fun _ _ _ _ => rfl) fun _ =>
        .ite (.pure .nil) ?_
      refine (built_statement hnesting hn hM).step fun first first' hfirst => ?_
      refine (ih (by omega) (by omega)).followed fun others others' hothers => ?_
      exact .pure (.cons hfirst hothers)

end Statements

end Parser

end Clausal
