import Clausal.Proofs.Grammar.Reading

/-!
What a reader has stepped over. A cursor advances over a word when its items begin with the tokens
of the word and the other cursor stands behind them. A reader that is put together from others
succeeds where its parts do, one behind the other, and each single step takes one token.
-/

namespace Clausal

open Token

namespace Cursor

def items (c : Cursor) : List Token.Item :=
  match c.current with
  | none => []
  | some t => .ok t :: c.pending

/-- The second cursor stands behind the word with which the items of the first one begin. -/
structure Advances (c : Cursor) (w : List Token) (c' : Cursor) : Prop where
  items_eq : c.items = w.map .ok ++ c'.items
  previous_eq : c'.previous = lastSpan c.previous w

namespace Advances

variable {c c₁ c' : Cursor} {u v w : List Token} {t : Token}

theorem refl (c : Cursor) : c.Advances [] c := ⟨rfl, rfl⟩

/-- Two ways of advancing one after the other. -/
theorem append (hu : c.Advances u c₁) (hv : c₁.Advances v c') : c.Advances (u ++ v) c' := by
  refine ⟨?_, ?_⟩
  · rw [hu.items_eq, hv.items_eq, List.map_append, List.append_assoc]
  · rw [hv.previous_eq, hu.previous_eq, lastSpan_append]

theorem cons (ht : c.Advances [t] c₁) (hw : c₁.Advances w c') : c.Advances (t :: w) c' :=
  ht.append hw

/-- The first token of the word is the one at the cursor. -/
theorem current_eq (h : c.Advances (t :: w) c') : c.current = some t := by
  have hitems := h.items_eq
  unfold items at hitems
  split at hitems
  · simp at hitems
  · next t' ht' => simp_all

end Advances

variable {c c' : Cursor} {t : Token} {kind : Token.Kind} {text : String}

theorem advances_of_consume (h : c.consume = (.ok t, c')) : c.Advances [t] c' := by
  unfold consume at h
  split at h
  · simp at h
  · next t' ht' =>
      split at h
      · next hp =>
          simp only [Prod.mk.injEq, Except.ok.injEq] at h
          obtain ⟨rfl, rfl⟩ := h
          exact ⟨by simp [items, ht', hp], rfl⟩
      · next hp =>
          simp only [Prod.mk.injEq, Except.ok.injEq] at h
          obtain ⟨rfl, rfl⟩ := h
          exact ⟨by simp [items, ht', hp], rfl⟩
      · simp at h

theorem kind_of_check (hc : c.check kind = true) (ht : c.current = some t) : t.kind = kind := by
  simpa [check, ht] using hc

theorem is_of_checkText (hc : c.checkText kind text = true) (ht : c.current = some t) :
    t.is kind text = true := by
  simpa [checkText, ht] using hc

theorem currentSpan_of_current (ht : c.current = some t) : c.currentSpan = t.span := by
  simp [currentSpan, ht]

theorem current_of_any {P : Token → Bool} (h : c.current.any P = true) :
    ∃ t, c.current = some t ∧ P t = true := by
  cases hc : c.current with
  | none => simp [hc] at h
  | some t => exact ⟨t, rfl, by simpa [hc] using h⟩

theorem current_of_items {rest : List Token.Item} (h : c.items = .ok t :: rest) :
    c.current = some t := by
  unfold items at h
  split at h
  · contradiction
  · next t' hc =>
      obtain rfl : t' = t := by simpa using (List.cons.inj h).1
      exact hc

theorem items_of_ofItems {all : List Token.Item} {endOffset : Nat}
    (h : ofItems all endOffset = .ok c) : c.items = all := by
  unfold ofItems at h
  split at h
  · obtain rfl := Except.ok.inj h
    rfl
  · obtain rfl := Except.ok.inj h
    rfl
  · contradiction

end Cursor

namespace Parser

variable {α β : Type} {p : Parser α} {f : α → Parser β} {a : α} {b : β} {c c' : Cursor}
  {kind : Token.Kind} {text : String} {t : Token}

/-- A reader that is followed by another gives a result where both do. -/
theorem bind_eq_ok (h : (p >>= f) c = .ok b c') :
    ∃ a c₁, p c = .ok a c₁ ∧ f a c₁ = .ok b c' := by
  rw [bind_apply] at h
  cases hp : p c with
  | ok a c₁ => exact ⟨a, c₁, rfl, by simpa [hp, Reply.bind] using h⟩
  | error e => simp [hp, Reply.bind] at h
  | starved => simp [hp, Reply.bind] at h

theorem pure_eq_ok {a' : α} (h : (pure a : Parser α) c = .ok a' c') : a = a' ∧ c = c' := by
  simpa [pure_apply] using h

theorem look_bind_eq_ok {g : Cursor → α} (h : (look g >>= f) c = .ok b c') :
    f (g c) c = .ok b c' := h

/-- A context changes errors only. -/
theorem within_eq_ok {context : ParseError.Context} (h : within context p c = .ok a c') :
    p c = .ok a c' := by
  unfold within at h
  cases hp : p c <;> simp_all [Reply.mapError]

theorem eq_of_ofStep_eq_ok {r : Except ParseError α × Cursor} (h : Reply.ofStep r = .ok a c') :
    r = (.ok a, c') := by
  obtain ⟨o, c₁⟩ := r
  cases o <;> simp_all [Reply.ofStep]

/-- A step takes one token. -/
theorem consume_eq_ok (h : consume c = .ok t c') : c.Advances [t] c' :=
  Cursor.advances_of_consume (eq_of_ofStep_eq_ok h)

/-- A token that is expected is taken, and it is of the kind. -/
theorem expect_eq_ok (h : expect kind c = .ok t c') : t.kind = kind ∧ c.Advances [t] c' := by
  have hstep := eq_of_ofStep_eq_ok h
  unfold Cursor.expect at hstep
  split at hstep
  · next hc =>
      have hadv := Cursor.advances_of_consume hstep
      exact ⟨Cursor.kind_of_check hc hadv.current_eq, hadv⟩
  · simp at hstep

theorem expectText_eq_ok (h : expectText kind text c = .ok t c') :
    t.is kind text = true ∧ c.Advances [t] c' := by
  have hstep := eq_of_ofStep_eq_ok h
  unfold Cursor.expectText at hstep
  split at hstep
  · next hc =>
      have hadv := Cursor.advances_of_consume hstep
      exact ⟨Cursor.is_of_checkText hc hadv.current_eq, hadv⟩
  · simp at hstep

/-- A token that may be missing is taken, or the cursor stays where it was. -/
theorem eat_eq_ok {eaten : Bool} (h : eat kind c = .ok eaten c') :
    (eaten = true ∧ ∃ t : Token, t.kind = kind ∧ c.Advances [t] c') ∨
      (eaten = false ∧ c = c') := by
  have hstep := eq_of_ofStep_eq_ok h
  unfold Cursor.eat at hstep
  split at hstep
  · next hc =>
      split at hstep
      · next t c₁ hconsume =>
          simp only [Prod.mk.injEq, Except.ok.injEq] at hstep
          obtain ⟨rfl, rfl⟩ := hstep
          have hadv := Cursor.advances_of_consume hconsume
          exact .inl ⟨rfl, t, Cursor.kind_of_check hc hadv.current_eq, hadv⟩
      · simp at hstep
  · simp only [Prod.mk.injEq, Except.ok.injEq] at hstep
    exact .inr ⟨hstep.1.symm, hstep.2⟩

end Parser

end Clausal
