import Clausal.Proofs.Grammar.Soundness

/-!
What a reader finds wrong stays wrong whatever follows. A reader on a longer input goes the same
way as on the shorter one, until it is past the last token of the shorter one; from there on the
shorter input is either read to its end or ends too early. So an error that is not about the end
of the input is the error of every longer input. There is one exception: that a list of types is
empty is noticed after its closing bracket, where a longer input may already have another error.
Where the longer input goes on with an error of the lexer, that error is met at the latest.
-/

namespace Clausal

/-- The cursor on an input that goes on with more items. -/
def Cursor.prolonged (more : List Token.Item) (endOffset : Nat) (c : Cursor) : Cursor :=
  { c with pending := c.pending ++ more, endOffset }

section

variable {more : List Token.Item} {endOffset : Nat} {c : Cursor}

@[simp] theorem Cursor.current_prolonged : (c.prolonged more endOffset).current = c.current := rfl

theorem Cursor.currentSpan_prolonged (hc : c.current ≠ none) :
    (c.prolonged more endOffset).currentSpan = c.currentSpan := by
  obtain ⟨t, ht⟩ := Option.ne_none_iff_exists'.mp hc
  simp [currentSpan, ht]

theorem Cursor.items_prolonged {t : Token} (hc : c.current = some t) :
    (c.prolonged more endOffset).items = c.items ++ more := by
  simp [items, prolonged, hc]

end

namespace Reply

variable {α : Type}

/-- The reader has come to the end of the input, or misses something there. -/
def Ended : Reply α → Prop
  | ok _ c => c.current = none
  | error e => e.isUnexpectedEnd = true
  | starved => True

/-- The second answer, from a longer input, is the first one as far as that does not come from the
end of the shorter input. -/
def Carries (more : List Token.Item) (endOffset : Nat) (r r' : Reply α) : Prop :=
  match r with
  | ok a c => c.current ≠ none → r' = ok a (c.prolonged more endOffset)
  | error e => e.isUnexpectedEnd = false →
      r' = error e ∨ e.cause = .missingReturnType ∧ ∃ e', r' = error e'
  | starved => True

variable {more : List Token.Item} {endOffset : Nat}

theorem Ended.carries {r r' : Reply α} (h : r.Ended) : r.Carries more endOffset r' := by
  cases r with
  | ok a c => exact fun hc => absurd h hc
  | error e =>
      intro hend
      rw [show e.isUnexpectedEnd = true from h] at hend
      contradiction
  | starved => trivial

/-- The longer input may be read in more rounds. -/
theorem Carries.congr {r r' r'' : Reply α} (h : r.Carries more endOffset r')
    (hsame : r' ≠ .starved → r'' = r') : r.Carries more endOffset r'' := by
  cases r with
  | ok a c =>
      intro hc
      rw [← h hc]
      exact hsame (by simp [h hc])
  | error e =>
      intro hend
      rcases h hend with hother | ⟨hcause, e', hother⟩
      · rw [hsame (by simp [hother])]
        exact .inl hother
      · rw [hsame (by simp [hother])]
        exact .inr ⟨hcause, e', hother⟩
  | starved => trivial

def Reports (x : LexError) : Reply α → Prop
  | .error e => e.cause = .lexical x ∧ e.span = x.span
  | _ => False

/-- The second answer is the first one, on an input that goes on with an error of the lexer; but
where the first input is used up the error is reported. -/
def Meets (x : LexError) (later : List Token.Item) (endOffset : Nat) (r r' : Reply α) : Prop :=
  match r with
  | .ok a c => (c.current = none → r'.Reports x) ∧
      (c.current ≠ none → r' = .ok a (c.prolonged (.error x :: later) endOffset))
  | .error e => r' = .error e ∨ r'.Reports x
  | .starved => True

theorem Meets.congr {x : LexError} {later : List Token.Item} {r r' r'' : Reply α}
    (h : r.Meets x later endOffset r') (hsame : r' ≠ .starved → r'' = r') :
    r.Meets x later endOffset r'' := by
  by_cases hstarved : r' = .starved
  · subst hstarved
    cases r with
    | ok a c =>
        by_cases hc : c.current = none
        · exact (h.1 hc).elim
        · exact nomatch h.2 hc
    | error e => exact h.elim nofun False.elim
    | starved => trivial
  · rw [hsame hstarved]
    exact h

theorem Reports.exists_error {x : LexError} {r : Reply α} (h : r.Reports x) :
    ∃ e, r = .error e ∧ e.cause = .lexical x ∧ e.span = x.span := by
  cases r with
  | error e => exact ⟨e, rfl, h⟩
  | _ => cases h

theorem Reports.bind {β : Type} {x : LexError} {r : Reply α} (h : r.Reports x)
    (next : α → Parser β) : (r.bind next).Reports x := by
  cases r with
  | error e => exact h
  | _ => cases h

theorem Reports.mapError {x : LexError} {r : Reply α} (h : r.Reports x)
    (context : ParseError.Context) : (r.mapError (·.within context)).Reports x := by
  cases r with
  | error e => exact h
  | _ => cases h

end Reply

namespace Parser

variable {α β : Type} {p q : Parser α} {f : α → Parser β} {more : List Token.Item}
  {endOffset : Nat} {c : Cursor}

/-- From the cursor, the reader either is at the end of the input, or answers as it does when the
input goes on. -/
structure Persists (more : List Token.Item) (endOffset : Nat) (p : Parser α) (c : Cursor) :
    Prop where
  ended : c.current = none → (p c).Ended
  carried : c.current ≠ none → (p c).Carries more endOffset (p (c.prolonged more endOffset))

namespace Persists

theorem pure (a : α) : Persists more endOffset (Pure.pure a) c := ⟨id, fun _ _ => rfl⟩

theorem starve : Persists more endOffset (starve : Parser α) c :=
  ⟨fun _ => trivial, fun _ => trivial⟩

theorem fail {e : ParseError} (h : c.current = none → e.isUnexpectedEnd = true) :
    Persists more endOffset (fail e : Parser α) c :=
  ⟨h, fun _ _ => .inl rfl⟩

/-- When the first reader has come to the end of the input, so do the readers after it. -/
theorem bind (hp : Persists more endOffset p c)
    (hf : ∀ {a c'}, p c = .ok a c' → Persists more endOffset (f a) c') :
    Persists more endOffset (p >>= f) c := by
  refine ⟨fun hc => ?_, fun hc => ?_⟩
  · have hended := hp.ended hc
    rw [bind_apply]
    cases hread : p c with
    | ok a c' =>
        rw [hread] at hended
        exact (hf hread).ended hended
    | error e =>
        rw [hread] at hended
        exact hended
    | starved => trivial
  · have hcarried := hp.carried hc
    rw [bind_apply, bind_apply]
    cases hread : p c with
    | ok a c' =>
        rw [hread] at hcarried
        -- Once the shorter input is used up, what follows on it says nothing about the longer one.
        by_cases hend : c'.current = none
        · exact ((hf hread).ended hend).carries
        · rw [hcarried hend]
          exact (hf hread).carried hend
    | error e =>
        rw [hread] at hcarried
        intro hend
        rcases hcarried hend with hsame | ⟨hcause, e', hother⟩
        · exact .inl (by rw [hsame]; rfl)
        · exact .inr ⟨hcause, e', by rw [hother]; rfl⟩
    | starved => trivial

theorem look {g : Cursor → α} (hg : c.current ≠ none → g (c.prolonged more endOffset) = g c)
    (h : Persists more endOffset (f (g c)) c) : Persists more endOffset (look g >>= f) c := by
  refine ⟨h.ended, fun hc => ?_⟩
  change Reply.Carries more endOffset (f (g c) c) (f (g (c.prolonged more endOffset)) _)
  rw [hg hc]
  exact h.carried hc

theorem ite {b : Prop} [Decidable b] (hp : Persists more endOffset p c)
    (hq : Persists more endOffset q c) : Persists more endOffset (if b then p else q) c := by
  split
  · exact hp
  · exact hq

theorem within {context : ParseError.Context} (h : Persists more endOffset p c) :
    Persists more endOffset (within context p) c := by
  unfold Parser.within
  refine ⟨fun hc => ?_, fun hc => ?_⟩
  · have hended := h.ended hc
    cases hread : p c with
    | ok a c' =>
        rw [hread] at hended
        exact hended
    | error e =>
        rw [hread] at hended
        exact hended
    | starved => trivial
  · have hcarried := h.carried hc
    cases hread : p c with
    | ok a c' =>
        rw [hread] at hcarried
        intro hend
        simp only [hcarried hend]
        rfl
    | error e =>
        rw [hread] at hcarried
        intro hend
        rcases hcarried hend with hsame | ⟨hcause, e', hother⟩
        · exact .inl (by simp only [hsame]; rfl)
        · exact .inr ⟨hcause, e'.within context, by simp only [hother]; rfl⟩
    | starved => trivial

end Persists

theorem persists_consume : Persists more endOffset consume c := by
  obtain ⟨current, previous, pending, stop⟩ := c
  cases current with
  | none => exact ⟨fun _ => rfl, fun h => absurd rfl h⟩
  | some t =>
      refine ⟨fun h => by simp at h, fun _ => ?_⟩
      cases pending with
      | nil => exact fun h => absurd rfl h
      | cons item items =>
          cases item with
          | ok t' => exact fun _ => rfl
          | error e => exact fun _ => .inl rfl

/-- The cursor is where a reader starts. -/
def Start.At (c : Cursor) : Start → Prop
  | anywhere => True
  | onToken => c.current ≠ none
  | atEnd => c.current = none

/-- A reader that finds no list of types empty fails about the current token, if there is one, and
else about the end of the input. -/
theorem Built.persists_at {start : Start} {n : Nat} {steps : Bool} {R : α → α → Prop}
    (h : Built .same False start n steps R p q) (hc : start.At c) :
    Persists more endOffset p c := by
  induction h generalizing c with
  | pure => exact .pure _
  | bind first _ _ ihp ihf =>
      refine (ihp hc).bind fun hread => ?_
      obtain ⟨b, hb⟩ := first.answer hread
      exact ihf _ b hb trivial
  | test _ _ ih => exact .look (fun _ => rfl) (ih _ hc)
  | current _ _ ihended ihtoken =>
      refine .look (fun _ => rfl) ?_
      cases hcurrent : c.current with
      | none => exact ihended hcurrent
      | some t =>
          have hsome : c.current ≠ none := by simp [hcurrent]
          exact ihtoken t t (.mk t.kind t.text ⟨trivial, rfl⟩) hsome
  | currentSpan _ ih => exact .look Cursor.currentSpan_prolonged (ih _ _ ⟨trivial, rfl⟩ hc)
  | previous _ ih => exact .look (fun _ => rfl) (ih _ _ ⟨trivial, rfl⟩ hc)
  | consume => exact persists_consume
  | refuse => exact .fail fun hend => absurd hend hc
  | endTooEarly => exact .fail fun _ => rfl
  | noType h => exact h.elim
  | starve => exact .starve
  | within _ _ ih => exact (ih hc).within
  | weaken _ place _ _ _ ih =>
      rcases place with rfl | rfl
      · exact ih trivial
      · exact ih hc

theorem Built.persists {R : α → α → Prop} (h : Built .same False .anywhere 0 true R p q) :
    Persists more endOffset p c :=
  h.persists_at trivial

variable {rounds : Nat}

/-- A list of types that comes back empty is made up of its brackets. -/
theorem typeList_eq_nil {c' : Cursor} (h : typeList rounds c = .ok [] c') :
    ∃ opening closing : Token, opening.is .compareOp "<" = true ∧
      closing.is .compareOp ">" = true ∧ c.Advances [opening, closing] c' := by
  obtain ⟨opening, ho, ⟨-, closing, hc, hadv⟩ | ⟨w, -, hword⟩⟩ := typeList_eq_ok h
  · exact ⟨opening, closing, ho, hc, hadv⟩
  · cases getLast?_of_closedTypes hword

/-- Two brackets are read as an empty list of types, unless there is an error right after them. -/
theorem typeList_of_brackets (rounds : Nat) {opening closing : Token}
    (ho : opening.is .compareOp "<" = true) (hc : closing.is .compareOp ">" = true)
    {items : List Token.Item}
    (h : c.items = .ok opening :: .ok closing :: items) :
    (∃ c', typeList rounds c = .ok [] c') ∨ ∃ e, typeList rounds c = .error e := by
  have hcurrent := Cursor.current_of_items h
  obtain ⟨current, previous, pending, stop⟩ := c
  obtain rfl : current = some opening := hcurrent
  obtain rfl : pending = .ok closing :: items := (List.cons.inj h).2
  have hopening : expectText .compareOp "<" ⟨some opening, previous, .ok closing :: items, stop⟩ =
      .ok opening ⟨some closing, opening.span, items, stop⟩ := by
    simp [expectText, Cursor.expectText, Cursor.checkText, Cursor.consume, ho, Reply.ofStep]
  have hnames : typeNames rounds ⟨some closing, opening.span, items, stop⟩ =
      .ok [] ⟨some closing, opening.span, items, stop⟩ := typeNames_of_closing rounds hc
  simp only [typeList, within, bind_apply, hopening, Reply.bind, hnames, pure_apply]
  cases hclosing : expectText .compareOp ">" ⟨some closing, opening.span, items, stop⟩ with
  | ok t c' => exact .inl ⟨c', rfl⟩
  | error e => exact .inr ⟨_, rfl⟩
  | starved => exact absurd hclosing (ofStep_ne_starved _)

theorem functionDeclaration_of_empty {c' : Cursor} (h : typeList rounds c = .ok [] c') :
    functionDeclaration rounds c = .error
      ⟨.missingReturnType, c.currentSpan.merge c'.previous, some .functionDeclaration⟩ := by
  simp only [functionDeclaration, within, look, bind_apply, Reply.bind, h]
  rfl

theorem functionDeclaration_of_error {e : ParseError} (h : typeList rounds c = .error e) :
    functionDeclaration rounds c = .error (e.within .functionDeclaration) := by
  simp only [functionDeclaration, within, look, bind_apply, Reply.bind, h]
  rfl

/-- That a list of types is empty is noticed where the longer input may already have an error. -/
theorem persists_functionDeclaration (rounds : Nat) (c : Cursor) :
    Persists more endOffset (functionDeclaration rounds) c := by
  have hrounds := Nat.le_refl rounds
  by_cases hempty : ∃ c', typeList rounds c = .ok [] c'
  · obtain ⟨c', hread⟩ := hempty
    obtain ⟨opening, closing, ho, hc, hadv⟩ := typeList_eq_nil hread
    have hitems : (c.prolonged more endOffset).items =
        .ok opening :: .ok closing :: (c'.items ++ more) := by
      rw [Cursor.items_prolonged hadv.current_eq, hadv.items_eq]
      rfl
    refine ⟨fun hend => absurd hadv.current_eq (by simp [hend]), fun _ => ?_⟩
    -- The brackets are read on the longer input as well, but the item behind them may be an error,
    -- which then comes before the one about the empty list.
    rw [functionDeclaration_of_empty hread]
    refine fun _ => .inr ⟨rfl, ?_⟩
    rcases typeList_of_brackets rounds ho hc hitems with ⟨c₁, h⟩ | ⟨e, h⟩
    · exact ⟨_, functionDeclaration_of_empty h⟩
    · exact ⟨_, functionDeclaration_of_error h⟩
  · have htypes : Persists more endOffset (typeList rounds) c :=
      (built_typeList hrounds (Nat.zero_le _)).persists
    refine .within <| .look Cursor.currentSpan_prolonged <| htypes.bind fun {types c₁} hread => ?_
    cases hlast : types.getLast? with
    | none =>
        obtain rfl := List.getLast?_eq_none_iff.mp hlast
        exact absurd ⟨c₁, hread⟩ hempty
    | some returnType =>
        have hstart : Likeness.same.span c.currentSpan c.currentSpan := ⟨trivial, rfl⟩
        exact (built_declared hrounds (Nat.zero_le _) types returnType hstart).persists

theorem persists_statement (rounds : Nat) (c : Cursor) :
    Persists more endOffset (statement rounds) c := by
  have hrounds := Nat.le_refl rounds
  refine .look (fun _ => rfl) <| .ite (persists_consume.bind fun _ => .pure _) ?_
  refine .look (fun _ => rfl) <| .ite (persists_functionDeclaration rounds c) ?_
  refine .look (fun _ => rfl) <| .ite ?_ ?_
  · exact (built_definition hrounds (Nat.zero_le _)).persists
  · exact (built_expressionStatement hrounds (Nat.zero_le _)).persists

theorem persists_statements (nesting rounds : Nat) (c : Cursor) :
    Persists more endOffset (statements nesting rounds) c := by
  induction rounds generalizing c with
  | zero => exact .starve
  | succ rounds ih =>
      refine .look (fun _ => rfl) <| .ite (.pure _) ?_
      exact (persists_statement nesting c).bind fun _ => (ih _).bind fun _ => .pure _

/-- A reader goes the same way on an input in which an error of the lexer follows, up to that
error. What it would do at the end of the shorter input does not matter there. -/
theorem Built.meets {M : Prop} {start : Start} {n : Nat} {steps : Bool} {R : α → α → Prop}
    (h : Built .same M start n steps R p q) (hc : c.current ≠ none) (x : LexError)
    (later : List Token.Item) (endOffset : Nat) :
    (p c).Meets x later endOffset (p (c.prolonged (.error x :: later) endOffset)) := by
  induction h generalizing c with
  | pure => exact ⟨fun hnone => absurd hnone hc, fun _ => rfl⟩
  | test _ _ ih => exact ih _ hc
  | @current _ _ _ _ _ f _ _ _ ihended ihtoken =>
      change (f c.current c).Meets x later endOffset (f c.current _)
      cases c.current with
      | none => exact ihended hc
      | some t => exact ihtoken t t (.mk t.kind t.text ⟨trivial, rfl⟩) hc
  | @currentSpan _ _ _ _ _ f _ _ ih =>
      change (f _ c).Meets x later endOffset (f _ _)
      rw [Cursor.currentSpan_prolonged hc]
      exact ih _ _ ⟨trivial, rfl⟩ hc
  | previous _ ih => exact ih _ _ ⟨trivial, rfl⟩ hc
  | refuse | endTooEarly | noType => exact .inl rfl
  | starve => trivial
  | weaken _ _ _ _ _ ih => exact ih hc
  | consume =>
      obtain ⟨current, previous, pending, stop⟩ := c
      cases current with
      | none => exact absurd rfl hc
      | some t =>
          cases pending with
          | nil => exact ⟨fun _ => ⟨rfl, rfl⟩, fun hsome => absurd rfl hsome⟩
          | cons item items =>
              cases item with
              | ok t' => exact ⟨fun hnone => absurd hnone (Option.some_ne_none t'), fun _ => rfl⟩
              | error e => exact .inl rfl
  | @bind _ _ _ _ _ _ _ _ p _ f _ first _ rest ihp ihf =>
      have hfirst := ihp hc
      rw [bind_apply, bind_apply]
      cases hread : p c with
      | ok a c₁ =>
          obtain ⟨b, hb⟩ := first.answer hread
          rw [hread] at hfirst
          by_cases hend : c₁.current = none
          · -- Whatever the rest makes of the end of the shorter input, on the longer one the
            -- error is met before.
            have hreports := (hfirst.1 hend).bind f
            change Reply.Meets _ _ _ (f a c₁) _
            cases hlater : f a c₁ with
            | ok d c₂ =>
                have hend₂ := (rest a b hb).atEnd hend hlater
                exact ⟨fun _ => hreports, fun hsome => absurd hend₂ hsome⟩
            | error e => exact .inr hreports
            | starved => trivial
          · rw [hfirst.2 hend]
            exact ihf a b hb hend
      | error e =>
          rw [hread] at hfirst
          rcases hfirst with hsame | hreports
          · exact .inl (by rw [hsame]; rfl)
          · exact .inr (hreports.bind f)
      | starved => trivial
  | @within _ _ _ _ _ p _ context _ ih =>
      have hinner := ih hc
      unfold Parser.within
      cases hread : p c with
      | ok a c₁ =>
          rw [hread] at hinner
          refine ⟨fun hnone => (hinner.1 hnone).mapError context, fun hsome => ?_⟩
          rw [hinner.2 hsome]
          rfl
      | error e =>
          rw [hread] at hinner
          rcases hinner with hsame | hreports
          · exact .inl (by rw [hsame]; rfl)
          · exact .inr (hreports.mapError context)
      | starved => trivial

end Parser

namespace Program

/-- An error that is not about the end of the input is there whatever follows; of an empty list of
types it is known only that there is an error. -/
theorem ofItems_append_eq_error {items : List Token.Item} {endOffset : Nat} {e : ParseError}
    (h : ofItems items endOffset = .error e) (hend : e.isUnexpectedEnd = false)
    (more : List Token.Item) (endOffset' : Nat) :
    ofItems (items ++ more) endOffset' = .error e ∨
      e.cause = .missingReturnType ∧ ∃ e', ofItems (items ++ more) endOffset' = .error e' := by
  rcases ofItems_eq_error h with hstart | ⟨c, hstart, hread⟩
  · cases items with
    | nil => cases hstart
    | cons item items =>
        cases item with
        | ok t => cases hstart
        | error e' =>
            left
            simpa [ofItems, Cursor.ofItems] using hstart
  · have hrounds := Nat.le_add_right (items.length + 2) more.length
    have hbuilt : Parser.Built .same True .anywhere 0 false _ _ _ :=
      Parser.built_statements hrounds hrounds (Nat.zero_le _) (Nat.zero_le _) trivial
    have hmore := hbuilt.eq_of_ne_starved (fun _ _ h => (forall₂_and_eq.mp h).2)
      (c := c.prolonged more endOffset')
    have hpersists : Parser.Persists more endOffset' (Parser.statements _ _) c :=
      Parser.persists_statements (items.length + 2) (items.length + 2) c
    have hended := hpersists.ended
    have hcarried := fun hc => (hpersists.carried hc).congr hmore
    simp only [hread, Reply.Ended, Reply.Carries, hend] at hended hcarried
    have hlength : (items ++ more).length + 2 = items.length + 2 + more.length := by
      rw [List.length_append]
      omega
    have hlonger : Cursor.ofItems (items ++ more) endOffset' =
        .ok (c.prolonged more endOffset') := by
      cases items with
      | nil =>
          cases hstart
          simp at hended
      | cons item items =>
          cases item with
          | ok t =>
              cases hstart
              rfl
          | error e' => cases hstart
    simp only [ofItems, hlonger, hlength]
    rcases hcarried (by simpa using hended) trivial with hsame | ⟨hcause, e', hother⟩
    · exact .inl (by rw [hsame])
    · exact .inr ⟨hcause, e', by rw [hother]⟩

end Program

end Clausal
