import Clausal.Proofs.Grammar.Simulation

/-!
Readers make progress. What a reader answers with was read from tokens one after another, from one
at least unless nothing need be there, and no reader goes back. So the rounds of a repetition are
used up more slowly than the items, and a reader that has more rounds than there are items left does
not starve. This holds for all items, errors among them.
-/

namespace Clausal

namespace Parser

/-- The tokens that were stepped over are missing from the items that are left. -/
theorem length_of_advances {c c' : Cursor} {w : List Token} (h : c.Advances w c') :
    c.items.length = w.length + c'.items.length := by
  rw [h.items_eq, List.length_append, List.length_map]

/-- A single operation of the cursor needs no rounds. -/
theorem ofStep_ne_starved {α : Type} (r : Except ParseError α × Cursor) :
    Reply.ofStep r ≠ .starved := by
  obtain ⟨result, c⟩ := r
  cases result <;> simp [Reply.ofStep]

namespace Built

variable {M : Prop} {start : Start} {n : Nat} {steps : Bool} {α : Type} {R : α → α → Prop}
  {p q : Parser α} {c c' : Cursor} {a : α}

/-- Every reader goes over tokens one after another, and leaves the items behind them as they
are. -/
theorem advances (h : Built .same M start n steps R p q) (hread : p c = .ok a c') :
    ∃ w, c.Advances w c' ∧ (steps = true → w ≠ []) := by
  induction h generalizing c c' with
  | pure _ =>
      obtain ⟨-, rfl⟩ := pure_eq_ok hread
      exact ⟨[], .refl c, nofun⟩
  | bind first _ _ ihp ihf =>
      obtain ⟨b, c₁, hfirst, hlater⟩ := bind_eq_ok hread
      obtain ⟨b', hb⟩ := first.answer hfirst
      obtain ⟨u, hu, hstepped⟩ := ihp hfirst
      obtain ⟨v, hv, -⟩ := ihf b b' hb hlater
      exact ⟨u ++ v, hu.append hv, fun hsteps h => hstepped hsteps (List.append_eq_nil_iff.mp h).1⟩
  | test _ _ ih => exact ih _ (look_bind_eq_ok hread)
  | @current _ _ _ _ _ f _ _ _ ihended ihtoken =>
      replace hread := look_bind_eq_ok hread
      cases hcurrent : c.current with
      | none =>
          rw [hcurrent] at hread
          exact ihended hread
      | some t =>
          rw [hcurrent] at hread
          exact ihtoken t t (.mk t.kind t.text ⟨trivial, rfl⟩) hread
  | currentSpan _ ih | previous _ ih => exact ih _ _ ⟨trivial, rfl⟩ (look_bind_eq_ok hread)
  | consume => exact ⟨[a], consume_eq_ok hread, fun _ => List.cons_ne_nil a []⟩
  | refuse | endTooEarly | noType | starve => cases hread
  | within _ _ ih => exact ih (within_eq_ok hread)
  | weaken _ _ _ fallback _ ih =>
      obtain ⟨w, hadv, hstepped⟩ := ih hread
      exact ⟨w, hadv, fun hsteps => hstepped (fallback hsteps)⟩

/-- With fewer items left than this the reader does not starve. -/
theorem ne_starved (h : Built .same M start n steps R p q) (hc : c.items.length < n) :
    p c ≠ .starved := by
  induction h generalizing c with
  | pure _ | refuse | endTooEarly | noType => nofun
  | @bind _ n m steps _ _ _ _ p _ f _ first enough _ ihp ihf =>
      rw [bind_apply]
      cases hread : p c with
      | ok a c' =>
          -- What comes after a step has one item less before it, and so it may do with less.
          obtain ⟨b, hb⟩ := first.answer hread
          obtain ⟨w, hadv, hstepped⟩ := first.advances hread
          have hlength := length_of_advances hadv
          refine ihf a b hb ?_
          cases steps with
          | false =>
              rw [Bool.toNat_false] at enough
              omega
          | true =>
              have hw := List.length_pos_iff.mpr (hstepped rfl)
              rw [Bool.toNat_true] at enough
              omega
      | error e => simp [Reply.bind]
      | starved => exact absurd hread (ihp hc)
  | test _ _ ih => exact ih _ hc
  | @current _ _ _ _ _ f _ _ _ ihended ihtoken =>
      change f c.current c ≠ .starved
      cases c.current with
      | none => exact ihended hc
      | some t => exact ihtoken t t (.mk t.kind t.text ⟨trivial, rfl⟩) hc
  | currentSpan _ ih | previous _ ih => exact ih _ _ ⟨trivial, rfl⟩ hc
  | consume => exact ofStep_ne_starved _
  | starve => exact absurd hc (Nat.not_lt_zero _)
  | @within _ _ _ _ _ p _ context _ ih =>
      have hinner := ih hc
      unfold Parser.within
      cases hread : p c with
      | ok a c' => simp [Reply.mapError]
      | error e => simp [Reply.mapError]
      | starved => exact absurd hread hinner
  | weaken _ _ fewer _ _ ih => exact ih (Nat.lt_of_lt_of_le hc fewer)

end Built

end Parser

namespace Program

variable {items : List Token.Item} {endOffset : Nat} {c : Cursor} {e : ParseError}

/-- The reader of programs has rounds enough for all items. -/
theorem read_ne_starved (hstart : Cursor.ofItems items endOffset = .ok c) :
    Parser.statements (items.length + 2) (items.length + 2) c ≠ .starved := by
  have hrounds := Nat.le_refl (items.length + 2)
  have hbuilt : Parser.Built .same True .anywhere (items.length + 1) false _
      (Parser.statements (items.length + 2) (items.length + 2)) _ :=
    Parser.built_statements hrounds hrounds (Nat.le_refl _) (Nat.le_succ _) trivial
  exact hbuilt.ne_starved (by rw [Cursor.items_of_ofItems hstart]; omega)

/-- What the reader of programs answers is the answer. -/
theorem ofItems_cases (hstart : Cursor.ofItems items endOffset = .ok c) :
    (∃ ss c', Parser.statements (items.length + 2) (items.length + 2) c = .ok ss c' ∧
        ofItems items endOffset = .ok ⟨ss⟩) ∨
      ∃ e, Parser.statements (items.length + 2) (items.length + 2) c = .error e ∧
        ofItems items endOffset = .error e := by
  simp only [ofItems, hstart]
  cases hanswer : Parser.statements (items.length + 2) (items.length + 2) c with
  | ok ss c' => exact .inl ⟨ss, c', rfl, rfl⟩
  | error e => exact .inr ⟨e, rfl, rfl⟩
  | starved => exact absurd hanswer (read_ne_starved hstart)

/-- What is not accepted is not accepted because a reader said so. -/
theorem ofItems_eq_error (h : ofItems items endOffset = .error e) :
    Cursor.ofItems items endOffset = .error e ∨
      ∃ c, Cursor.ofItems items endOffset = .ok c ∧
        Parser.statements (items.length + 2) (items.length + 2) c = .error e := by
  cases hstart : Cursor.ofItems items endOffset with
  | error e' =>
      simp only [ofItems, hstart] at h
      exact .inl (congrArg Except.error (Except.error.inj h))
  | ok c =>
      rcases ofItems_cases hstart with ⟨ss, c', -, hanswer⟩ | ⟨e', hread, hanswer⟩
      · cases hanswer.symm.trans h
      · cases hanswer.symm.trans h
        exact .inr ⟨c, rfl, hread⟩

/-- What the reader of programs refuses is refused. -/
theorem ofItems_of_read_error (hstart : Cursor.ofItems items endOffset = .ok c)
    (hread : Parser.statements (items.length + 2) (items.length + 2) c = .error e) :
    ofItems items endOffset = .error e := by
  simp only [ofItems, hstart, hread]

/-- What is accepted is what the reader of programs answers with. -/
theorem read_of_ofItems {p : Program} (h : ofItems items endOffset = .ok p) :
    ∃ c c', Cursor.ofItems items endOffset = .ok c ∧
      Parser.statements (items.length + 2) (items.length + 2) c = .ok p.statements c' := by
  cases hstart : Cursor.ofItems items endOffset with
  | error e =>
      simp only [ofItems, hstart] at h
      cases h
  | ok c =>
      rcases ofItems_cases hstart with ⟨ss, c', hread, hanswer⟩ | ⟨e, -, hanswer⟩
      · cases hanswer.symm.trans h
        exact ⟨c, c', rfl, hread⟩
      · cases hanswer.symm.trans h

end Program

end Clausal
