import Clausal.Proofs.Grammar.Progress
import Clausal.Proofs.Token.Lines
import Clausal.Proofs.Tree.Spans
import Mathlib.Order.MinMax

/-!
Parsing does not look at places. The same items at other offsets are read to the same tree at the
other offsets, and where they are not accepted the failure is the same at its other place. The steps
of the readers have this property, and so every reader has it.
-/

namespace Clausal

section Places

variable {o : Nat → Nat}

theorem Span.moved_merge (ho : Monotone o) (a b : Span) :
    (a.merge b).moved o = (a.moved o).merge (b.moved o) := by
  simp only [Span.moved, Span.merge, ho.map_min, ho.map_max]

abbrev Expr.moved (o : Nat → Nat) (e : Expr) : Expr := e.mapSpans (.moved o)

abbrev Ident.moved (o : Nat → Nat) (i : Ident) : Ident := i.mapSpan (.moved o)

abbrev Clause.moved (o : Nat → Nat) (c : Clause) : Clause := c.mapSpans (.moved o)

abbrev Match.moved (o : Nat → Nat) (m : Match) : Match := m.mapSpans (.moved o)

abbrev Statement.moved (o : Nat → Nat) (s : Statement) : Statement := s.mapSpans (.moved o)

abbrev Program.moved (o : Nat → Nat) (p : Program) : Program := p.mapSpans (.moved o)

theorem Match.moved_always (params : List Ident) (body : Expr) :
    (Match.always params body).moved o =
      .always (params.map (·.moved o)) (body.moved o) := by
  simp [Match.always, Match.mapSpans, Clause.mapSpans]

end Places

def ParseError.Cause.moved (o : Nat → Nat) : ParseError.Cause → ParseError.Cause
  | .lexical e => .lexical (e.moved o)
  | cause => cause

def ParseError.moved (o : Nat → Nat) (e : ParseError) : ParseError :=
  ⟨e.cause.moved o, e.span.moved o, e.context⟩

/-- A result at the other offsets, with the value changed as its places need. -/
def ParseError.movedAnswer {α β : Type} (o : Nat → Nat) (m : α → β) :
    Except ParseError α → Except ParseError β
  | .ok a => .ok (m a)
  | .error e => .error (e.moved o)

def Cursor.moved (o : Nat → Nat) (c : Cursor) : Cursor :=
  ⟨c.current.map (·.moved o), c.previous.moved o, c.pending.map (·.moved o), o c.endOffset⟩

theorem Cursor.currentSpan_moved (o : Nat → Nat) (c : Cursor) :
    (c.moved o).currentSpan = c.currentSpan.moved o := by
  obtain ⟨current, previous, pending, stop⟩ := c
  cases current <;> rfl

def Reply.moved {α β : Type} (o : Nat → Nat) (m : α → β) : Reply α → Reply β
  | .ok a c => .ok (m a) (c.moved o)
  | .error e => .error (e.moved o)
  | .starved => .starved

section Readers

variable {o : Nat → Nat} {α : Type}

theorem forall₂_map_eq {f : α → α} {as bs : List α} :
    List.Forall₂ (fun a b => f a = b) as bs ↔ as.map f = bs := by
  rw [← List.forall₂_map_left_iff, List.forall₂_eq_eq_eq]

def Likeness.moved (o : Nat → Nat) (ho : Monotone o) : Likeness where
  span s s' := s.moved o = s'
  ident i i' := i.moved o = i'
  expr e e' := e.moved o = e'
  clause c c' := c.moved o = c'
  function m m' := m.moved o = m'
  statement s s' := s.moved o = s'
  merge := by
    rintro a _ b _ rfl rfl
    exact Span.moved_merge ho a b
  spanOf := by
    rintro e _ rfl
    exact (e.span_mapSpans (.moved o)).symm
  paramNames := by
    rintro m _ rfl
    exact (m.paramNames_mapSpans (.moved o)).symm
  binder := by
    rintro name s _ rfl
    rfl
  number := by
    rintro value raw s _ rfl
    rfl
  string := by
    rintro value raw s _ rfl
    rfl
  boolean := by
    rintro value raw s _ rfl
    rfl
  name := by
    rintro name s _ rfl
    rfl
  tuple := by
    rintro es _ s _ hes rfl
    obtain rfl := forall₂_map_eq.mp hes
    simp [Expr.mapSpans]
  binary := by
    rintro op a _ b _ s _ rfl rfl rfl
    rfl
  unary := by
    rintro op a _ s _ rfl rfl
    rfl
  call := by
    rintro f _ args _ s _ rfl hargs rfl
    obtain rfl := forall₂_map_eq.mp hargs
    simp [Expr.mapSpans]
  matching := by
    rintro params _ cases _ s _ hparams hcases rfl
    obtain rfl := forall₂_map_eq.mp hparams
    obtain rfl := forall₂_map_eq.mp hcases
    simp [Expr.mapSpans]
  guarded := by
    rintro a _ b _ s _ rfl rfl rfl
    rfl
  catchAll := by
    rintro e _ s _ rfl rfl
    rfl
  always := by
    rintro params _ e _ hparams rfl
    obtain rfl := forall₂_map_eq.mp hparams
    exact Match.moved_always params e
  ofExpr := by
    rintro e _ rfl
    exact (Match.ofExpr_mapSpans (.moved o) e).symm
  declaration := by
    rintro name types returnType m _ s _ rfl rfl
    rw [Match.paramNames_mapSpans]
    rfl
  define := by
    rintro typeName name e _ s _ rfl rfl
    rfl
  expression := by
    rintro e _ s _ rfl rfl
    rfl
  comment := by
    rintro text s _ rfl
    rfl

/-- An error that is not one of the lexer names no place. -/
theorem ParseError.Cause.moved_of_stated {cause : Cause} (h : ∀ x, cause ≠ .lexical x) :
    cause.moved o = cause := by
  unfold Cause.moved
  split
  · next x => exact absurd rfl (h x)
  · rfl

/-- A step at the other offsets is the step. -/
theorem Cursor.simulation_moved (ho : Monotone o) :
    Cursor.Simulation (.moved o ho) (fun c c' => c.moved o = c') (fun e e' => e.moved o = e') where
  current := by
    rintro ⟨current, previous, pending, stop⟩ _ rfl
    cases current with
    | none => exact .none
    | some t => exact .some (.mk t.kind t.text rfl)
  currentSpan := by
    rintro c _ rfl
    exact (c.currentSpan_moved o).symm
  previous := by
    rintro c _ rfl
    rfl
  consume := by
    rintro ⟨current, previous, pending, stop⟩ _ rfl
    cases current with
    | none => exact .error rfl
    | some t =>
        rcases pending with _ | ⟨item, items⟩
        · exact .ok trivial rfl
        · cases item with
          | ok t' => exact .ok trivial rfl
          | error e => exact .error rfl
  stated := by
    rintro cause s _ hcause rfl
    rw [ParseError.moved, ParseError.Cause.moved_of_stated hcause]
  within := by
    rintro context e _ rfl
    rfl

theorem Reply.Alike.eq_moved {R : α → α → Prop} {m : α → α} {r r' : Reply α}
    (h : r.Alike R (fun c c' => c.moved o = c') (fun e e' => e.moved o = e') r')
    (hvalue : ∀ a b, R a b → m a = b) (hr : r ≠ .starved) : r' = r.moved o m := by
  cases h with
  | ok hab hc => rw [Reply.moved, hvalue _ _ hab, hc]
  | error he => rw [Reply.moved, he]
  | starved => contradiction

/-- A program at the other offsets is read to the same statements, in as many rounds at least. -/
theorem Parser.statements_moved (ho : Monotone o) {nesting nesting' rounds rounds' : Nat}
    (hnesting : nesting ≤ nesting') (hrounds : rounds ≤ rounds') {c : Cursor}
    (hsated : statements nesting rounds c ≠ .starved) :
    statements nesting' rounds' (c.moved o) =
      (statements nesting rounds c).moved o (List.map (Statement.moved o)) := by
  have hbuilt : Built (.moved o ho) True .anywhere 0 false _ (statements nesting rounds) _ :=
    built_statements hrounds hnesting (Nat.zero_le _) (Nat.zero_le _) trivial
  have halike := hbuilt.simulates (Cursor.simulation_moved ho) (c := c) rfl
  exact halike.eq_moved (fun _ _ h => forall₂_map_eq.mp h) hsated

end Readers

/-- Items at other offsets are those of the same program at the other offsets, and items that are
not accepted fail for the same reason. -/
theorem Program.ofItems_moved {o : Nat → Nat} (ho : Monotone o) (hzero : o 0 = 0)
    (items : List Token.Item) (endOffset : Nat) :
    ofItems (items.map (·.moved o)) (o endOffset) =
      ParseError.movedAnswer o (·.moved o) (ofItems items endOffset) := by
  have hstart : Cursor.ofItems (items.map (·.moved o)) (o endOffset) =
      ParseError.movedAnswer o (·.moved o) (Cursor.ofItems items endOffset) := by
    have hpoint : (Span.point 0).moved o = .point 0 := by
      rw [Span.point, Span.moved, hzero]
    cases items with
    | nil => simp [Cursor.ofItems, ParseError.movedAnswer, Cursor.moved, hpoint]
    | cons item items =>
        cases item with
        | ok t => simp [Cursor.ofItems, ParseError.movedAnswer, Cursor.moved, hpoint,
            Token.Item.moved]
        | error e => rfl
  simp only [ofItems, List.length_map, hstart]
  cases hitems : Cursor.ofItems items endOffset with
  | error e => rfl
  | ok c =>
      have hrounds := Nat.le_refl (items.length + 2)
      have hread := Parser.statements_moved ho hrounds hrounds (read_ne_starved hitems)
      simp only [ParseError.movedAnswer, hread]
      cases Parser.statements (items.length + 2) (items.length + 2) c <;> rfl

/-- What a source is read to depends on its items alone, up to places. -/
theorem Program.ofItems_bareItems (source : String) :
    ofItems (TokenStream.bareItems source.toList) 0 =
      ParseError.movedAnswer (fun _ => 0) (·.bare) (parse source) :=
  ofItems_moved (fun _ _ _ => Nat.le_refl 0) rfl _ _

end Clausal
