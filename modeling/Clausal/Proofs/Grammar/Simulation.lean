import Clausal.Proofs.Grammar.Building
import Clausal.Proofs.Grammar.Advancing
import Clausal.Proofs.Tree.Places

/-!
What the single steps do alike, all readers do alike. Two cursors are set against each other, and
the looks at them and the steps over their tokens are compared; then every reader, put together from
these, answers on both in the same manner. Set against itself, a cursor tells what a reader keeps,
and that rounds beyond those that it needs change nothing.
-/

namespace Clausal

/-- Answers that are alike: values, the cursors behind them, or errors. Nothing is said where the
first reader starves. -/
inductive Reply.Alike {α : Type} (R : α → α → Prop) (C : Cursor → Cursor → Prop)
    (E : ParseError → ParseError → Prop) : Reply α → Reply α → Prop
  | ok {a a' : α} {c c' : Cursor} (value : R a a') (after : C c c') :
      Alike R C E (.ok a c) (.ok a' c')
  | error {e e' : ParseError} (failure : E e e') : Alike R C E (.error e) (.error e')
  | starved (r : Reply α) : Alike R C E .starved r

/-- Cursors at which looks and steps are alike. -/
structure Cursor.Simulation (L : Likeness) (C : Cursor → Cursor → Prop)
    (E : ParseError → ParseError → Prop) : Prop where
  current {c c' : Cursor} : C c c' → Option.Rel L.Tokens c.current c'.current
  currentSpan {c c' : Cursor} : C c c' → L.span c.currentSpan c'.currentSpan
  previous {c c' : Cursor} : C c c' → L.span c.previous c'.previous
  consume {c c' : Cursor} : C c c' →
    (Parser.consume c).Alike (fun _ _ => True) C E (Parser.consume c')
  /-- A failure that a reader states is not one of the lexer. -/
  stated {cause : ParseError.Cause} {s s' : Span} : (∀ x, cause ≠ .lexical x) → L.span s s' →
    E ⟨cause, s, none⟩ ⟨cause, s', none⟩
  within (context : ParseError.Context) {e e' : ParseError} : E e e' →
    E (e.within context) (e'.within context)

variable {L : Likeness} {M : Prop} {start : Parser.Start} {n : Nat} {steps : Bool} {α β : Type}
  {R R' : α → α → Prop} {C : Cursor → Cursor → Prop} {E : ParseError → ParseError → Prop}

namespace Reply.Alike

variable {r r' : Reply α} {S : β → β → Prop} {f g : α → Parser β}

theorem bind (h : r.Alike R C E r')
    (hrest : ∀ a a' c c', R a a' → C c c' → (f a c).Alike S C E (g a' c')) :
    (r.bind f).Alike S C E (r'.bind g) := by
  cases h with
  | ok ha hc => exact hrest _ _ _ _ ha hc
  | error he => exact .error he
  | starved => exact .starved _

theorem mapError {context : ParseError.Context} (h : r.Alike R C E r')
    (hcontext : ∀ e e', E e e' → E (e.within context) (e'.within context)) :
    (r.mapError (·.within context)).Alike R C E (r'.mapError (·.within context)) := by
  cases h with
  | ok ha hc => exact .ok ha hc
  | error he => exact .error (hcontext _ _ he)
  | starved => exact .starved _

theorem mono (h : r.Alike R C E r') (hle : ∀ a a', R a a' → R' a a') : r.Alike R' C E r' := by
  cases h with
  | ok ha hc => exact .ok (hle _ _ ha) hc
  | error he => exact .error he
  | starved => exact .starved _

/-- Answers that are alike only if they are the same. -/
theorem eq_of_ne_starved (h : r.Alike R C E r') (hvalue : ∀ a a', R a a' → a = a')
    (hcursor : ∀ c c', C c c' → c = c') (herror : ∀ e e', E e e' → e = e')
    (hr : r ≠ .starved) : r' = r := by
  cases h with
  | ok ha hc => rw [hvalue _ _ ha, hcursor _ _ hc]
  | error he => rw [herror _ _ he]
  | starved => contradiction

end Reply.Alike

/-- The tokens that are stepped over are those that are looked at. -/
theorem Cursor.Simulation.alike_consume (h : Cursor.Simulation L C E) {c c' : Cursor}
    (hc : C c c') : (Parser.consume c).Alike L.Tokens C E (Parser.consume c') := by
  have hstep := h.consume hc
  have hcurrent := h.current hc
  generalize hread : Parser.consume c = r, hread' : Parser.consume c' = r' at hstep
  cases hstep with
  | ok _ hafter =>
      rw [(Parser.consume_eq_ok hread).current_eq,
        (Parser.consume_eq_ok hread').current_eq] at hcurrent
      cases hcurrent with
      | some ht => exact .ok ht hafter
  | error he => exact .error he
  | starved => exact .starved _

/-- Readers that are built in the same way answer alike where the steps are alike. -/
theorem Parser.Built.simulates {p q : Parser α} (h : Built L M start n steps R p q)
    (hsteps : Cursor.Simulation L C E) {c c' : Cursor} (hc : C c c') :
    (p c).Alike R C E (q c') := by
  induction h generalizing c c' with
  | pure hab => exact .ok hab hc
  | bind _ _ _ ihp ihf => exact (ihp hc).bind fun a a' _ _ ha hc => ihf a a' ha hc
  | @test _ _ _ _ _ _ v f g unplaced _ ih =>
      have hview : v c.current = v c'.current := by
        have hcurrent := hsteps.current hc
        generalize c.current = current, c'.current = current' at hcurrent
        cases hcurrent with
        | none => rfl
        | some ht =>
            obtain ⟨kind, text, _⟩ := ht
            exact unplaced kind text _ _
      have hanswer := ih (v c.current) hc
      change (f (v c.current) c).Alike _ C E (g (v c'.current) c')
      rwa [← hview]
  | @current _ _ _ _ _ f g _ _ ihended ihtoken =>
      change (f c.current c).Alike _ C E (g c'.current c')
      have hcurrent := hsteps.current hc
      generalize c.current = current, c'.current = current' at hcurrent
      cases hcurrent with
      | none => exact ihended hc
      | some ht => exact ihtoken _ _ ht hc
  | currentSpan _ ih => exact ih _ _ (hsteps.currentSpan hc) hc
  | previous _ ih => exact ih _ _ (hsteps.previous hc) hc
  | consume => exact hsteps.alike_consume hc
  | refuse stated place => exact .error (hsteps.stated stated place)
  | endTooEarly place => exact .error (hsteps.stated nofun place)
  | noType _ place => exact .error (hsteps.stated nofun place)
  | starve => exact .starved _
  | within context _ ih => exact (ih hc).mapError fun _ _ => hsteps.within context
  | weaken _ _ _ _ mono ih => exact (ih hc).mono mono

section Placed

theorem forall₂_and_eq {P : α → Prop} {as bs : List α} :
    List.Forall₂ (fun a b => P a ∧ a = b) as bs ↔ (∀ a ∈ as, P a) ∧ as = bs := by
  rw [List.forall₂_and_left, List.forall₂_eq_eq_eq]

variable {V : Span → Prop} {hmerge : ∀ {a b : Span}, V a → V b → V (a.merge b)}

/-- The same trees, and all places in them are like this. -/
def Likeness.placed (V : Span → Prop) (hmerge : ∀ {a b : Span}, V a → V b → V (a.merge b)) :
    Likeness where
  span s s' := V s ∧ s = s'
  ident := Eq
  expr e e' := e.Placed V ∧ e = e'
  clause c c' := c.Placed V ∧ c = c'
  function m m' := m.Placed V ∧ m = m'
  statement s s' := s.Placed V ∧ s = s'
  merge := by
    rintro a _ b _ ⟨ha, rfl⟩ ⟨hb, rfl⟩
    exact ⟨hmerge ha hb, rfl⟩
  spanOf := by
    rintro e _ ⟨he, rfl⟩
    exact ⟨he.span, rfl⟩
  paramNames := by
    rintro m _ ⟨-, rfl⟩
    rfl
  binder := by
    rintro name s _ ⟨-, rfl⟩
    rfl
  number := by
    rintro value raw s _ ⟨hs, rfl⟩
    exact ⟨Expr.placed_number.mpr hs, rfl⟩
  string := by
    rintro value raw s _ ⟨hs, rfl⟩
    exact ⟨Expr.placed_string.mpr hs, rfl⟩
  boolean := by
    rintro value raw s _ ⟨hs, rfl⟩
    exact ⟨Expr.placed_boolean.mpr hs, rfl⟩
  name := by
    rintro name s _ ⟨hs, rfl⟩
    exact ⟨Expr.placed_ident.mpr hs, rfl⟩
  tuple := by
    rintro es _ s _ h ⟨hs, rfl⟩
    obtain ⟨hes, rfl⟩ := forall₂_and_eq.mp h
    exact ⟨Expr.placed_tuple.mpr ⟨hs, hes⟩, rfl⟩
  binary := by
    rintro op a _ b _ s _ ⟨ha, rfl⟩ ⟨hb, rfl⟩ ⟨hs, rfl⟩
    exact ⟨Expr.placed_binary.mpr ⟨hs, ha, hb⟩, rfl⟩
  unary := by
    rintro op a _ s _ ⟨ha, rfl⟩ ⟨hs, rfl⟩
    exact ⟨Expr.placed_unary.mpr ⟨hs, ha⟩, rfl⟩
  call := by
    rintro f _ args _ s _ ⟨hf, rfl⟩ h ⟨hs, rfl⟩
    obtain ⟨hargs, rfl⟩ := forall₂_and_eq.mp h
    exact ⟨Expr.placed_call.mpr ⟨hs, hf, hargs⟩, rfl⟩
  matching := by
    rintro params _ cases _ s _ hparams h ⟨hs, rfl⟩
    rw [List.forall₂_eq_eq_eq] at hparams
    obtain rfl := hparams
    obtain ⟨hcases, rfl⟩ := forall₂_and_eq.mp h
    exact ⟨Expr.placed_matching.mpr ⟨hs, hcases⟩, rfl⟩
  guarded := by
    rintro a _ b _ s _ ⟨ha, rfl⟩ ⟨hb, rfl⟩ ⟨-, rfl⟩
    exact ⟨Clause.placed_guarded.mpr ⟨ha, hb⟩, rfl⟩
  catchAll := by
    rintro e _ s _ ⟨he, rfl⟩ ⟨-, rfl⟩
    exact ⟨Clause.placed_catchAll.mpr he, rfl⟩
  always := by
    rintro params _ e _ hparams ⟨he, rfl⟩
    rw [List.forall₂_eq_eq_eq] at hparams
    obtain rfl := hparams
    exact ⟨Match.placed_always he, rfl⟩
  ofExpr := by
    rintro e _ ⟨he, rfl⟩
    exact ⟨Match.placed_ofExpr he, rfl⟩
  declaration := by
    rintro name types returnType m _ s _ ⟨hm, rfl⟩ ⟨-, rfl⟩
    exact ⟨hm, rfl⟩
  define := by
    rintro typeName name e _ s _ ⟨he, rfl⟩ ⟨-, rfl⟩
    exact ⟨he, rfl⟩
  expression := by
    rintro e _ s _ ⟨he, rfl⟩ ⟨-, rfl⟩
    exact ⟨he, rfl⟩
  comment := by
    rintro text s _ ⟨-, rfl⟩
    exact ⟨nofun, rfl⟩

/-- The same trees, wherever they are. -/
def Likeness.same : Likeness := .placed (fun _ => True) fun _ _ => trivial

/-- What the value, the cursor after it, and the error of an answer are like. -/
def Reply.Satisfies (A : α → Prop) (I : Cursor → Prop) (E : ParseError → Prop) : Reply α → Prop
  | .ok a c => A a ∧ I c
  | .error e => E e
  | .starved => True

/-- What the single steps of the readers keep: `I` is known of the cursor, which tells `V` of the
spans, and `E` of the errors. -/
structure Cursor.Invariant (V : Span → Prop) (I : Cursor → Prop) (E : ParseError → Prop) :
    Prop where
  current : ∀ c t, I c → c.current = some t → V t.span
  currentSpan : ∀ c, I c → V c.currentSpan
  previous : ∀ c, I c → V c.previous
  consume : ∀ c, I c → (Parser.consume c).Satisfies (fun _ => True) I E
  stated : ∀ e : ParseError, V e.span → (∀ x, e.cause ≠ .lexical x) → E e
  within : ∀ context e, E e → E (e.within context)

variable {I : Cursor → Prop} {F : ParseError → Prop}

/-- Where nothing is to be known of spans, the steps over tokens matter alone. -/
theorem Cursor.Invariant.unplaced
    (consume : ∀ c, I c → (Parser.consume c).Satisfies (fun _ => True) I F)
    (stated : ∀ e : ParseError, (∀ x, e.cause ≠ .lexical x) → F e)
    (within : ∀ context e, F e → F (e.within context)) :
    Cursor.Invariant (fun _ => True) I F where
  current _ _ _ _ := trivial
  currentSpan _ _ := trivial
  previous _ _ := trivial
  consume := consume
  stated e _ := stated e
  within := within

/-- Every cursor keeps that it is a cursor. -/
theorem Cursor.Invariant.any :
    Cursor.Invariant (fun _ => True) (fun _ => True) (fun _ => True) := by
  refine .unplaced (fun c _ => ?_) (fun _ _ => trivial) fun _ _ _ => trivial
  cases Parser.consume c <;> simp [Reply.Satisfies]

/-- A cursor that keeps something, set against itself. -/
theorem Cursor.Invariant.simulation (h : Cursor.Invariant V I F) :
    Cursor.Simulation (.placed V hmerge) (fun c c' => I c ∧ c = c')
      (fun e e' => F e ∧ e = e') where
  current := by
    rintro c _ ⟨hc, rfl⟩
    cases hcurrent : c.current with
    | none => exact .none
    | some t => exact .some (.mk t.kind t.text ⟨h.current c t hc hcurrent, rfl⟩)
  currentSpan := by
    rintro c _ ⟨hc, rfl⟩
    exact ⟨h.currentSpan c hc, rfl⟩
  previous := by
    rintro c _ ⟨hc, rfl⟩
    exact ⟨h.previous c hc, rfl⟩
  consume := by
    rintro c _ ⟨hc, rfl⟩
    have hstep := h.consume c hc
    cases hread : Parser.consume c with
    | ok t c' =>
        rw [hread] at hstep
        exact .ok trivial ⟨hstep.2, rfl⟩
    | error e =>
        rw [hread] at hstep
        exact .error ⟨hstep, rfl⟩
    | starved => exact .starved _
  stated := by
    rintro cause s _ hcause ⟨hs, rfl⟩
    exact ⟨h.stated _ hs hcause, rfl⟩
  within := by
    rintro context e _ ⟨he, rfl⟩
    exact ⟨h.within context e he, rfl⟩

end Placed

namespace Parser.Built

variable {p q : Parser α} {c c' : Cursor} {a : α}

/-- What the steps keep, every reader keeps. -/
theorem satisfies {V : Span → Prop} {hmerge : ∀ {a b : Span}, V a → V b → V (a.merge b)}
    {I : Cursor → Prop} {F : ParseError → Prop} (h : Built (.placed V hmerge) M start n steps R p q)
    (hkept : Cursor.Invariant V I F) (hc : I c) : (p c).Satisfies (fun a => ∃ b, R a b) I F := by
  have hsteps : Cursor.Simulation (.placed V hmerge) _ _ := hkept.simulation
  have halike := h.simulates hsteps (c := c) ⟨hc, rfl⟩
  generalize p c = r, q c = r' at halike
  cases halike with
  | ok hab hafter => exact ⟨⟨_, hab⟩, hafter.1⟩
  | error he => exact he.1
  | starved => trivial

variable (h : Built .same M start n steps R p q)

include h

/-- A value that is read is one that the second reader may answer with. -/
theorem answer (hread : p c = .ok a c') : ∃ b, R a b := by
  have hanswer := h.satisfies .any (c := c) trivial
  rw [hread] at hanswer
  exact hanswer.1

/-- A reader that is at the end of the input stays there. -/
theorem atEnd (hc : c.current = none) (hread : p c = .ok a c') : c'.current = none := by
  have hkept : Cursor.Invariant (fun _ => True) (fun c => c.current = none) (fun _ => True) := by
    refine .unplaced (fun c hc => ?_) (fun _ _ => trivial) fun _ _ _ => trivial
    simp [Parser.consume, Cursor.consume, hc, Reply.ofStep, Reply.Satisfies]
  have hanswer := h.satisfies hkept hc
  rw [hread] at hanswer
  exact hanswer.2

/-- A reader that meets no error of the lexer reports none. -/
theorem error_stated (hpending : ∀ item ∈ c.pending, ∃ t, item = .ok t) {e : ParseError}
    (hread : p c = .error e) (x : LexError) : e.cause ≠ .lexical x := by
  have hkept : Cursor.Invariant (fun _ => True) (fun c => ∀ item ∈ c.pending, ∃ t, item = .ok t)
      (fun e => ∀ x, e.cause ≠ .lexical x) := by
    refine .unplaced (fun c hc => ?_) (fun _ he => he) fun _ _ he => he
    obtain ⟨current, previous, pending, stop⟩ := c
    cases current with
    | none => simp [Parser.consume, Cursor.consume, Reply.ofStep, Reply.Satisfies]
    | some t =>
        cases pending with
        | nil => exact ⟨trivial, hc⟩
        | cons item items =>
            obtain ⟨t', rfl⟩ := hc item List.mem_cons_self
            exact ⟨trivial, fun item hitem => hc item (List.mem_cons_of_mem _ hitem)⟩
  have hanswer := h.satisfies hkept hpending
  rw [hread] at hanswer
  exact hanswer x

/-- A reader that does not starve answers the same when it is given more rounds. -/
theorem eq_of_ne_starved (heq : ∀ a b, R a b → a = b) (hc : p c ≠ .starved) : q c = p c := by
  have halike := h.simulates (Cursor.Invariant.simulation .any) (c := c) ⟨trivial, rfl⟩
  exact halike.eq_of_ne_starved heq (fun _ _ => And.right) (fun _ _ => And.right) hc

end Parser.Built

end Clausal
