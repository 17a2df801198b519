import Mathlib
import Clausal.Proofs.Grammar.Completeness
import Clausal.Proofs.Grammar.Lexing
import Clausal.Proofs.Grammar.Prefixes

/-!
Programs one after the other. A statement ends with its last token: the token behind it is looked
at, but nothing comes of that, and the next statement takes nothing from the tokens before it. So a
text that is read, with a line end and a second text behind it, is read as the first text and then
as the second, and what is wrong with both is what is wrong with the second.
-/

namespace Clausal

open TokenStream

namespace Parser

variable {α β : Type} {p q : Parser α} {f : α → Parser β}

/-- The reader takes nothing from the token that was consumed before it starts. -/
def Fresh (p : Parser α) : Prop :=
  ∀ (c : Cursor) (previous : Span), p { c with previous } = p c

namespace Fresh

theorem starve : Fresh (starve : Parser α) := fun _ _ => rfl

theorem fail (e : ParseError) : Fresh (fail e : Parser α) := fun _ _ => rfl

/-- Whatever comes after the reader takes the cursor from it. -/
theorem bind (hp : Fresh p) : Fresh (p >>= f) := fun c previous => by
  rw [bind_apply, bind_apply, hp]

theorem look {g : Cursor → α} (hg : ∀ c previous, g { c with previous } = g c)
    (hf : ∀ a, Fresh (f a)) : Fresh (look g >>= f) := fun c previous => by
  change f (g { c with previous }) { c with previous } = f (g c) c
  rw [hg, hf]

theorem ite {b : Prop} [Decidable b] (hp : Fresh p) (hq : Fresh q) :
    Fresh (if b then p else q) := by
  split
  · exact hp
  · exact hq

theorem within {context : ParseError.Context} (hp : Fresh p) : Fresh (within context p) :=
  fun c previous => by rw [Parser.within, Parser.within, hp]

end Fresh

theorem fresh_consume : Fresh consume := by
  rintro ⟨current, -, pending, stop⟩ previous
  cases current with
  | none => rfl
  | some t => rcases pending with _ | ⟨_ | _, _⟩ <;> rfl

section

variable {kind : Token.Kind} {text : String} {expr : Parser Expr}

theorem fresh_mismatch (kind : Token.Kind) (spelling : Option String) :
    Fresh (look (·.mismatch kind spelling) >>= fail : Parser α) :=
  .look (fun _ _ => rfl) .fail

theorem fresh_expect : Fresh (expect kind) := by
  rw [expect_eq]
  exact .look (fun _ _ => rfl) fun _ => .ite fresh_consume (fresh_mismatch kind none)

theorem fresh_expectText : Fresh (expectText kind text) := by
  rw [expectText_eq]
  exact .look (fun _ _ => rfl) fun _ => .ite fresh_consume (fresh_mismatch kind (some text))

theorem fresh_primary (rounds : Nat) : Fresh (primary expr rounds) := by
  refine .look (fun _ _ => rfl) fun current => ?_
  cases current with
  | none => exact .look (fun _ _ => rfl) fun _ => .fail _
  | some t =>
      refine .ite (.within fresh_expect.bind) (.ite (.within fresh_expect.bind) ?_)
      cases atom? t with
      | none => exact .fail _
      | some answer =>
          cases answer with
          | ok e => exact fresh_consume.bind
          | error e => exact .fail e

theorem fresh_unary (rounds : Nat) : Fresh (unary expr rounds) := by
  cases rounds with
  | zero => exact .starve
  | succ rounds =>
      refine .look (fun _ _ => rfl) fun op => ?_
      cases op with
      | some op => exact fresh_consume.bind
      | none => exact (fresh_primary rounds).bind

theorem fresh_binary (rounds level : Nat) : Fresh (binary expr rounds level) := by
  induction level with
  | zero => exact fresh_unary rounds
  | succ level ih => exact ih.bind

theorem fresh_expression (rounds : Nat) : Fresh (expression rounds) := by
  cases rounds with
  | zero => exact .starve
  | succ rounds => exact fresh_binary rounds BinaryOp.loosest

theorem fresh_statement (rounds : Nat) : Fresh (statement rounds) :=
  .look (fun _ _ => rfl) fun _ => .ite fresh_consume.bind <|
    .look (fun _ _ => rfl) fun _ => .ite (.within <| .look (fun _ _ => rfl) fun _ =>
      .bind (.within fresh_expectText.bind)) <|
    .look (fun _ _ => rfl) fun _ => .ite (.within fresh_expect.bind)
      (.within (fresh_expression rounds).bind)

end

section Seam

variable {t : Token} {more : List Token.Item} {nesting endOffset : Nat}

/-- Where a token is left, a statement is read first. -/
theorem statements_of_current {c : Cursor} {rounds : Nat} (hc : c.current ≠ none) :
    statements nesting (rounds + 1) c =
      (statement nesting c).bind fun first =>
        statements nesting rounds >>= fun others => pure (first :: others) := by
  obtain ⟨t, ht⟩ := Option.ne_none_iff_exists'.mp hc
  have hend : c.atEnd = false := by simp [Cursor.atEnd, ht]
  rw [statements, bind_apply, look, Reply.bind, hend]
  rfl

/-- Where a token is left, a program takes nothing from the token before it. -/
theorem statements_previous {c : Cursor} (hc : c.current ≠ none) (rounds : Nat) (previous : Span) :
    statements nesting rounds { c with previous } = statements nesting rounds c := by
  cases rounds with
  | zero => rfl
  | succ rounds =>
      rw [statements_of_current (c := { c with previous }) hc, statements_of_current hc,
        fresh_statement]

/-- A statement is read where other tokens follow it, whatever comes behind those. -/
theorem statement_of_derivation {w rest : List Token} (d : Derivation .statement w)
    (hrest : rest ≠ []) (hnesting : (w ++ rest).length + 1 < nesting) (previous : Span) :
    statement nesting ((Cursor.on previous endOffset (w ++ rest)).prolonged more endOffset) =
      .ok d.meaning
        ((Cursor.on (Token.lastSpan previous w) endOffset rest).prolonged more endOffset) := by
  have hread := d.readable nesting rest hnesting previous endOffset
  have hpersists : Persists more endOffset (statement nesting)
    (Cursor.on previous endOffset (w ++ rest)) := persists_statement nesting _
  have hcarried := hpersists.carried (by simp [hrest])
  rw [hread] at hcarried
  exact hcarried (by simp [hrest])

/-- A program is read, in as many rounds as it has statements, where another token follows it,
whatever comes behind that token. -/
theorem statements_of_derivation (nesting rounds : Nat) :
    {w : List Token} → (d : Derivation .program w) → w.length + 2 < nesting →
      (previous : Span) →
        statements nesting (rounds + List.length d.meaning)
            ((Cursor.on previous endOffset (w ++ [t])).prolonged more endOffset) =
          (statements nesting rounds ⟨some t, Token.lastSpan previous w, more, endOffset⟩).bind
            fun ss => pure (d.meaning ++ ss)
  | _, .noStatement, _, previous => by
      have hseam : (Cursor.on previous endOffset ([] ++ [t])).prolonged more endOffset =
          ⟨some t, Token.lastSpan previous [], more, endOffset⟩ := rfl
      rw [hseam]
      change statements nesting rounds _ = _
      cases statements nesting rounds _ <;> rfl
  | _, .nextStatement (u := u) (v := v) first others, hnesting, previous => by
      have hlength : (u ++ v).length = u.length + v.length := List.length_append
      have hothers := statements_of_derivation nesting rounds others (by omega)
        (Token.lastSpan previous u)
      have hfirst : (u ++ (v ++ [t])).length + 1 < nesting := by
        simp only [List.length_append, List.length_singleton]
        omega
      have hcurrent : ((Cursor.on previous endOffset (u ++ v ++ [t])).prolonged more
          endOffset).current ≠ none := by simp
      change statements nesting (rounds + List.length others.meaning + 1) _ = _
      rw [statements_of_current hcurrent, List.append_assoc,
        statement_of_derivation first (by simp) hfirst, Reply.bind, bind_apply, hothers,
        Token.lastSpan_append]
      cases statements nesting rounds _ <;> rfl

/-- Items that start with a token are read behind others as on their own, but for the place. -/
theorem statements_moved_behind {o : Nat → Nat} (ho : Monotone o) {nesting' rounds rounds' : Nat}
    (hnesting : nesting ≤ nesting') (hrounds : rounds ≤ rounds') {c : Cursor}
    (hc : c.current ≠ none) (hsated : statements nesting rounds c ≠ .starved) (previous : Span) :
    statements nesting' rounds' { c.moved o with previous } =
      (statements nesting rounds c).moved o (List.map (Statement.moved o)) := by
  have hmoved : (c.moved o).current ≠ none := by simpa [Cursor.moved] using hc
  rw [statements_previous hmoved, statements_moved ho hnesting hrounds hsated]

end Seam

end Parser

theorem Derivation.length_meaning_le :
    {w : List Token} → (d : Derivation .program w) → List.length d.meaning ≤ w.length
  | _, .noStatement => Nat.le_refl 0
  | _, .nextStatement (u := u) (v := v) first others => by
      have hothers := others.length_meaning_le
      obtain ⟨t, u', hu, -⟩ := first.opens rfl
      change List.length others.meaning + 1 ≤ (u ++ v).length
      rw [List.length_append, hu, List.length_cons]
      omega

namespace Program

variable {w : List Token}

/-- Where tokens of a program come before items that start with a token, the items are read as they
are on their own, but for the place. -/
theorem ofItems_append_token (d : Derivation .program w) {o : Nat → Nat} (ho : Monotone o)
    (t : Token) (items : List Token.Item) (endOffset : Nat) :
    ofItems (w.map .ok ++ (.ok t :: items).map (·.moved o)) (o endOffset) =
      ParseError.movedAnswer o (fun q => ⟨d.meaning ++ (q.moved o).statements⟩)
        (ofItems (.ok t :: items) endOffset) := by
  generalize hjoined : w.map .ok ++ (.ok t :: items).map (·.moved o) = joined
  let c : Cursor := ⟨some t, .point 0, items, endOffset⟩
  let c' : Cursor := (Cursor.on (.point 0) (o endOffset) (w ++ [t.moved o])).prolonged
    (items.map (·.moved o)) (o endOffset)
  have hstart : Cursor.ofItems (.ok t :: items) endOffset = .ok c := rfl
  have hstart' : Cursor.ofItems joined (o endOffset) = .ok c' := by
    rw [← hjoined]
    cases w with
    | nil => rfl
    | cons t' w => simp [c', Cursor.ofItems, Cursor.on, Cursor.prolonged, Token.Item.moved]
  -- There are rounds for the statements of the tokens, and enough for what comes after them.
  let own := (Except.ok t :: items : List Token.Item).length + 2
  have hown : own = items.length + 3 := rfl
  obtain ⟨more, hmore⟩ := Nat.exists_eq_add_of_le' d.length_meaning_le
  have hlength : joined.length + 2 = own + more + List.length d.meaning := by
    simp only [← hjoined, List.length_append, List.length_map, List.length_cons]
    omega
  have hread : Parser.statements (joined.length + 2) (own + more + List.length d.meaning) c' = _ :=
    Parser.statements_of_derivation (joined.length + 2) (own + more) d (by omega) (.point 0)
  have hlater := Parser.statements_moved_behind ho (by omega : own ≤ joined.length + 2)
    (Nat.le_add_right own more) (c := c) (Option.some_ne_none t) (read_ne_starved hstart)
    (Token.lastSpan (.point 0) w)
  replace hread := hread.trans (congrArg (Reply.bind · _) hlater)
  rw [← hlength] at hread
  simp only [ofItems, hstart, hstart', hread]
  cases Parser.statements own own c <;> rfl

/-- Items behind the tokens of a program are read as they are on their own, but for the place. An
error of the lexer that comes first among them is met where the program ends, so it may be reported
in the context of its last statement. -/
theorem ofItems_append_moved (d : Derivation .program w) {o : Nat → Nat} (ho : Monotone o)
    (items : List Token.Item) (endOffset : Nat) :
    (∀ q, ofItems items endOffset = .ok q →
        ofItems (w.map .ok ++ items.map (·.moved o)) (o endOffset) =
          .ok ⟨d.meaning ++ (q.moved o).statements⟩) ∧
      ∀ e, ofItems items endOffset = .error e →
        ∃ context, ofItems (w.map .ok ++ items.map (·.moved o)) (o endOffset) =
            .error ⟨e.cause.moved o, e.span.moved o, context⟩ ∧
          (context = e.context ∨ ∃ x later, items = .error x :: later) := by
  match items with
  | [] =>
      have hempty : ofItems [] endOffset = .ok ⟨[]⟩ := rfl
      refine ⟨fun q hq => ?_, fun e he => ?_⟩
      · cases hempty.symm.trans hq
        rw [List.map_nil, List.append_nil, d.ofItems_eq_ok]
        exact congrArg (Except.ok ∘ Program.mk) (List.append_nil _).symm
      · cases hempty.symm.trans he
  | .ok t :: items =>
      rw [ofItems_append_token d ho]
      refine ⟨fun q hq => ?_, fun e he => ?_⟩
      · rw [hq]
        rfl
      · rw [he]
        exact ⟨e.context, rfl, .inl rfl⟩
  | .error x :: later =>
      have hmistaken : ofItems (.error x :: later) endOffset = .error (.ofLexError x) := rfl
      refine ⟨fun q hq => ?_, fun e he => ?_⟩
      · cases hmistaken.symm.trans hq
      cases hmistaken.symm.trans he
      obtain ⟨e, hread, hreported | hrefused⟩ := ofItems_append_error w (x.moved o)
        (later.map (·.moved o)) (o endOffset)
      · obtain ⟨cause, span, context⟩ := e
        obtain ⟨hcause, hspan⟩ := hreported
        cases hcause
        cases hspan
        exact ⟨context, hread, .inr ⟨x, later, rfl⟩⟩
      · cases hrefused.symm.trans (d.ofItems_eq_ok 0)

end Program

/-- The items of a text that starts at an offset, where all offsets can be recorded. -/
theorem TokenStream.itemsFrom_toList {source : String} {offset : Nat}
    (hsize : offset + source.utf8ByteSize ≤ maxOffset) :
    itemsFrom offset source.toList = (ofSource source).items.map (·.moved (offset + ·)) := by
  rw [← Nat.add_zero offset, itemsFrom_moved, Nat.add_zero]
  refine List.map_congr_left fun item hitem => ?_
  obtain ⟨hordered, hbounded⟩ := (covers_of_mem_source hitem).inside
  exact Token.Item.moved_congr (clampOffset_of_le (by omega)) (clampOffset_of_le (by omega))

namespace Program

/-- Where a line end stands between a program and another text, the statements of the program come
first, and then comes what the other text is read to, or its error, further on. -/
theorem parse_append_newline {a b : String} {p : Program}
    (hsize : a.utf8ByteSize + b.utf8ByteSize < 2 ^ 32 - 1) (ha : parse a = .ok p) :
    (∀ q, parse b = .ok q → parse (a ++ "\n" ++ b) =
        .ok ⟨p.statements ++ (q.moved (a.utf8ByteSize + 1 + ·)).statements⟩) ∧
      ∀ e, parse b = .error e →
        ∃ context, parse (a ++ "\n" ++ b) =
            .error ⟨e.cause.moved (a.utf8ByteSize + 1 + ·), e.span.moved (a.utf8ByteSize + 1 + ·),
              context⟩ ∧
          (context = e.context ∨ ∃ x later, (ofSource b).items = .error x :: later) := by
  obtain ⟨w, d, hitems, hmeaning⟩ := derivation_of_ofItems ha
  have hmax : a.utf8ByteSize + 1 + b.utf8ByteSize ≤ maxOffset := by
    simp only [maxOffset, UInt32.size]
    omega
  have hjoined : (ofSource (a ++ "\n" ++ b)).items =
      w.map .ok ++ (ofSource b).items.map (·.moved (a.utf8ByteSize + 1 + ·)) := by
    have hlines := itemsFrom_append_newline 0 a.toList b.toList
    rw [← toList_append_line, Text.byteLength_toList, Nat.zero_add, itemsFrom_toList hmax] at hlines
    exact hlines.trans (congrArg (· ++ _) hitems)
  have hend : clampOffset (a ++ "\n" ++ b).utf8ByteSize =
      a.utf8ByteSize + 1 + clampOffset b.utf8ByteSize := by
    have hsum : (a ++ "\n" ++ b).utf8ByteSize = a.utf8ByteSize + 1 + b.utf8ByteSize := by
      rw [String.utf8ByteSize_append, String.utf8ByteSize_append]
      rfl
    rw [hsum, clampOffset_of_le hmax, clampOffset_of_le (Nat.le_trans (Nat.le_add_left _ _) hmax)]
  have ho : Monotone (a.utf8ByteSize + 1 + ·) := fun m n h => Nat.add_le_add_left h _
  have hread : parse (a ++ "\n" ++ b) =
      ofItems (w.map .ok ++ (ofSource b).items.map (·.moved (a.utf8ByteSize + 1 + ·)))
        (a.utf8ByteSize + 1 + clampOffset b.utf8ByteSize) := by
    rw [parse, ofStream, hjoined]
    exact congrArg (ofItems _) hend
  rw [hread, ← hmeaning]
  exact ofItems_append_moved d ho (ofSource b).items (clampOffset b.utf8ByteSize)

/-- The statement `f;` with another one behind it, with one that is not ended, and with an error of
the lexer, which is met at the end of the statement. -/
theorem parse_append_newline_name :
    ∃ p, parse "f;" = .ok p ∧
      (∃ q, parse "g;" = .ok q ∧
        parse ("f;" ++ "\n" ++ "g;") = .ok ⟨p.statements ++ (q.moved (3 + ·)).statements⟩) ∧
      (∃ e, parse "g" = .error e ∧ parse ("f;" ++ "\n" ++ "g") = .error (e.moved (3 + ·))) ∧
      ∃ e context, parse "@" = .error e ∧ parse ("f;" ++ "\n" ++ "@") =
        .error ⟨e.cause.moved (3 + ·), e.span.moved (3 + ·), context⟩ := by
  have hfirst : (ofSource "f;").items =
      [.ok ⟨.identifier, "f", ⟨0, 1⟩⟩, .ok ⟨.semicolon, ";", ⟨1, 2⟩⟩] := by decide +kernel
  have hsecond : (ofSource "g;").items =
      [.ok ⟨.identifier, "g", ⟨0, 1⟩⟩, .ok ⟨.semicolon, ";", ⟨1, 2⟩⟩] := by decide +kernel
  have hopen : (ofSource "g").items = [.ok ⟨.identifier, "g", ⟨0, 1⟩⟩] := by decide +kernel
  have hmistaken : (ofSource "@").items = [.error ⟨.unexpectedCharacter '@', ⟨0, 1⟩⟩] := by
    decide +kernel
  have hp : parse "f;" = .ok ⟨[.expression (.ident "f" ⟨0, 1⟩) ⟨0, 2⟩]⟩ := by
    rw [parse, ofStream, hfirst]
    rfl
  have hq : parse "g;" = .ok ⟨[.expression (.ident "g" ⟨0, 1⟩) ⟨0, 2⟩]⟩ := by
    rw [parse, ofStream, hsecond]
    rfl
  have he : parse "g" = .error
      ⟨.unexpectedEnd (.kind .semicolon), .point 1, some .expressionStatement⟩ := by
    rw [parse, ofStream, hopen]
    rfl
  have hx : parse "@" = .error (.ofLexError ⟨.unexpectedCharacter '@', ⟨0, 1⟩⟩) := by
    rw [parse, ofStream, hmistaken]
    rfl
  refine ⟨_, hp, ⟨_, hq, (parse_append_newline (by decide) hp).1 _ hq⟩, ⟨_, he, ?_⟩, ?_⟩
  · obtain ⟨context, hread, hsame⟩ := (parse_append_newline (by decide) hp).2 _ he
    rcases hsame with rfl | ⟨x, later, hitems⟩
    · exact hread
    · cases hopen.symm.trans hitems
  · obtain ⟨context, hread, -⟩ := (parse_append_newline (by decide) hp).2 _ hx
    exact ⟨_, context, hx, hread⟩

end Program

end Clausal
