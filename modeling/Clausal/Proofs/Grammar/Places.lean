import Clausal.Proofs.Grammar.Progress
import Clausal.Proofs.Token.Extent

/-!
Where the readers take their spans from. A span in a tree or in an error is that of an item, the
end of the input, or covers two such spans. So whatever holds of the items and of the end, and is
kept when spans are merged, holds of all places in what is read, and of the place of the failure
where nothing is read.
-/

namespace Clausal

section Placed

variable (V : Span → Prop)

structure Cursor.Placed (c : Cursor) : Prop where
  items : ∀ item ∈ c.items, V item.span
  previous : V c.previous
  stop : V (.point c.endOffset)

/-- The error stands at such a place, and so does the error of the lexer that it may report. -/
structure ParseError.Placed (e : ParseError) : Prop where
  span : V e.span
  lexical : ∀ error, e.cause = .lexical error → V error.span

/-- The value read is like this, and all that is still to be read stands at such places. -/
def Reply.Placed {α : Type} (A : α → Prop) : Reply α → Prop
  | .ok a c => A a ∧ c.Placed V
  | .error e => e.Placed V
  | .starved => True

/-- The reader takes all of its spans from the items and the end of the input. -/
def Parser.Keeps {α : Type} (A : α → Prop) (p : Parser α) : Prop :=
  ∀ c : Cursor, c.Placed V → (p c).Placed V A

end Placed

variable {V : Span → Prop}

theorem Cursor.Placed.current {c : Cursor} (h : c.Placed V) {t : Token} (ht : c.current = some t) :
    V t.span :=
  h.items (.ok t) (by simp [Cursor.items, ht])

theorem Cursor.Placed.currentSpan {c : Cursor} (h : c.Placed V) : V c.currentSpan := by
  unfold Cursor.currentSpan
  split
  · next t ht => exact h.current ht
  · exact h.stop

/-- An error that is not the lexer's own has one place. -/
theorem ParseError.placed_of_span {e : ParseError} (h : V e.span)
    (hcause : ∀ error, e.cause ≠ .lexical error) : e.Placed V :=
  ⟨h, fun error he => absurd he (hcause error)⟩

/-- The steps of the readers hand on the places that they look at. -/
theorem Cursor.invariant_placed : Cursor.Invariant V (Cursor.Placed V) (ParseError.Placed V) where
  current _ _ hc := hc.current
  currentSpan _ hc := hc.currentSpan
  previous _ hc := hc.previous
  consume := by
    rintro ⟨current, previous, pending, stop⟩ hc
    cases current with
    | none => exact ParseError.placed_of_span hc.stop (by simp)
    | some t =>
        have hpending : ∀ item ∈ pending, V item.span := fun item hitem =>
          hc.items item (List.mem_cons_of_mem _ hitem)
        cases pending with
        | nil => exact ⟨trivial, by simp [Cursor.items], hc.current rfl, hc.stop⟩
        | cons item items =>
            cases item with
            | ok t' => exact ⟨trivial, hpending, hc.current rfl, hc.stop⟩
            | error e =>
                have he : V e.span := hpending (.error e) List.mem_cons_self
                refine ⟨he, fun error herror => ?_⟩
                cases herror
                exact he
  stated _ := ParseError.placed_of_span
  within _ _ he := ⟨he.span, he.lexical⟩

theorem Parser.Built.keeps {M : Prop} {start : Start} {n : Nat} {steps : Bool} {α : Type}
    {R : α → α → Prop} {p q : Parser α} {hmerge : ∀ {a b : Span}, V a → V b → V (a.merge b)}
    (h : Built (.placed V hmerge) M start n steps R p q) : Keeps V (fun a => ∃ b, R a b) p := by
  intro c hc
  have hanswer := h.satisfies Cursor.invariant_placed hc
  cases hread : p c with
  | ok a c' =>
      rw [hread] at hanswer
      exact hanswer
  | error e =>
      rw [hread] at hanswer
      exact hanswer
  | starved => trivial

section Programs

variable {items : List Token.Item} {endOffset : Nat} (hitems : ∀ item ∈ items, V item.span)

include hitems

theorem Cursor.placed_ofItems (hzero : V (.point 0)) (hend : V (.point endOffset)) {c : Cursor}
    (h : Cursor.ofItems items endOffset = .ok c) : c.Placed V := by
  have hleft : ∀ item ∈ c.items, V item.span := by rwa [Cursor.items_of_ofItems h]
  unfold Cursor.ofItems at h
  split at h
  · cases h
    exact ⟨hleft, hzero, hend⟩
  · cases h
    exact ⟨hleft, hzero, hend⟩
  · cases h

theorem ParseError.placed_ofItems {e : ParseError}
    (h : Cursor.ofItems items endOffset = .error e) : e.Placed V := by
  unfold Cursor.ofItems at h
  split at h
  · cases h
  · cases h
  · next error _ =>
      cases h
      have herror : V error.span := hitems (.error error) List.mem_cons_self
      exact ⟨herror, fun _ hcause => by cases hcause; exact herror⟩

/-- The answer of the parser, a program or an error, stands where the items stand. -/
theorem Program.placed_ofItems (hmerge : ∀ {a b : Span}, V a → V b → V (a.merge b))
    (hzero : V (.point 0)) (hend : V (.point endOffset)) :
    (∀ p, ofItems items endOffset = .ok p → ∀ s ∈ p.places, V s) ∧
      ∀ e, ofItems items endOffset = .error e → e.Placed V := by
  have hrounds := Nat.le_refl (items.length + 2)
  have hbuilt : Parser.Built (.placed V hmerge) True .anywhere 0 false _ _ _ :=
    Parser.built_statements hrounds hrounds (Nat.zero_le _) (Nat.zero_le _) trivial
  have hkeeps := hbuilt.keeps
  refine ⟨fun p h => ?_, fun e h => ?_⟩
  · obtain ⟨c, c', hstart, hanswer⟩ := read_of_ofItems h
    have hread := hkeeps c (Cursor.placed_ofItems hitems hzero hend hstart)
    rw [hanswer] at hread
    obtain ⟨⟨_, hplaced⟩, -⟩ := hread
    exact Program.forall_mem_places.mpr (forall₂_and_eq.mp hplaced).1
  · rcases ofItems_eq_error h with hstart | ⟨c, hstart, hanswer⟩
    · exact ParseError.placed_ofItems hitems hstart
    · have hread := hkeeps c (Cursor.placed_ofItems hitems hzero hend hstart)
      rw [hanswer] at hread
      exact hread

end Programs

/-- All places in what a source is read to, or in its error, lie in the source. -/
theorem Program.parse_inside (source : String) :
    (∀ p, parse source = .ok p → ∀ s ∈ p.places, s.Inside source) ∧
      ∀ e, parse source = .error e → e.Placed (Span.Inside source) :=
  placed_ofItems (fun _ hitem => (TokenStream.covers_of_mem_source hitem).inside)
    Span.Inside.merge ⟨Nat.le_refl 0, Nat.zero_le _⟩ ⟨Nat.le_refl _, Nat.min_le_left _ _⟩

/-- In a source that is not too long they cut no character. -/
theorem Program.parse_aligned {source : String} (hsize : source.utf8ByteSize ≤ maxOffset) :
    (∀ p, parse source = .ok p → ∀ s ∈ p.places, s.Aligned source) ∧
      ∀ e, parse source = .error e → e.Placed (Span.Aligned source) := by
  have hzero : String.Pos.Raw.IsValid source ⟨0⟩ :=
    TokenStream.isValid_of_append (List.nil_append source.toList).symm
  have hend := TokenStream.isValid_of_append (List.append_nil source.toList).symm
  rw [Text.byteLength_toList] at hend
  have hpoint : (Span.point source.utf8ByteSize).Aligned source :=
    ⟨⟨Nat.le_refl _, Nat.le_refl _⟩, hend, hend⟩
  rw [← clampOffset_of_le hsize] at hpoint
  exact placed_ofItems
    (fun item hitem => (TokenStream.covers_of_mem_source hitem).aligned hsize)
    Span.Aligned.merge ⟨⟨Nat.le_refl 0, Nat.zero_le _⟩, hzero, hzero⟩ hpoint

end Clausal
