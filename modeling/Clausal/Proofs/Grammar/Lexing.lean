import Mathlib
import Clausal.Failure
import Clausal.Proofs.Grammar.Continuation
import Clausal.Proofs.Grammar.Moving
import Clausal.Proofs.Grammar.Places
import Clausal.Proofs.Token.Layout

/-!
What the parser makes of what the lexer gives. The parser takes items as it needs them and stops at
its first failure, and the lexer alone goes through all of them; still both say the same about the
errors of the lexer, and where the parser stops before such an error, it stops at a place before it.
Of the tokens only the kinds and the texts matter: how a source is laid out does not.
-/

namespace Clausal

open TokenStream

namespace Program

variable {ts : List Token} {endOffset : Nat} {e : ParseError}

/-- Tokens alone are not refused because of an error of the lexer. -/
theorem error_stated_of_ofItems (h : ofItems (ts.map .ok) endOffset = .error e) (x : LexError) :
    e.cause ≠ .lexical x := by
  rcases ofItems_eq_error h with hstart | ⟨c, hstart, hread⟩
  · rw [Cursor.ofItems_map_ok] at hstart
    cases hstart
  · rw [Cursor.ofItems_map_ok] at hstart
    obtain rfl := Except.ok.inj hstart
    have hpending : ∀ item ∈ (Cursor.on (.point 0) endOffset ts).pending, ∃ t, item = .ok t := by
      cases ts with
      | nil => simp [Cursor.on]
      | cons t ts => simp [Cursor.on]
    have hrounds := Nat.le_refl ((ts.map .ok : List Token.Item).length + 2)
    have hbuilt : Parser.Built .same True .anywhere 0 false _ _ _ :=
      Parser.built_statements hrounds hrounds (Nat.zero_le _) (Nat.zero_le _) trivial
    exact hbuilt.error_stated hpending hread x

theorem error_stated_of_parse {source : String} (hitems : (ofSource source).items = ts.map .ok)
    (h : parse source = .error e) (x : LexError) : e.cause ≠ .lexical x := by
  rw [parse, ofStream, hitems] at h
  exact error_stated_of_ofItems h x

/-- Where an error of the lexer follows some tokens, it is reported, or the tokens are refused as
they are refused without it. -/
theorem ofItems_append_error (ts : List Token) (x : LexError) (later : List Token.Item)
    (endOffset : Nat) :
    ∃ e, ofItems (ts.map .ok ++ .error x :: later) endOffset = .error e ∧
      ((e.cause = .lexical x ∧ e.span = x.span) ∨ ofItems (ts.map .ok) 0 = .error e) := by
  cases ts with
  | nil => exact ⟨.ofLexError x, rfl, .inl ⟨rfl, rfl⟩⟩
  | cons t ts =>
      -- The readers go through the tokens alone, and next to that through all items, for which they
      -- have more rounds.
      let c : Cursor := ⟨some t, .point 0, ts.map .ok, 0⟩
      have hlonger : Cursor.ofItems ((t :: ts).map .ok ++ .error x :: later) endOffset =
          .ok (c.prolonged (.error x :: later) endOffset) := rfl
      have hrounds : (List.map .ok (t :: ts) : List Token.Item).length + 2 ≤
          (List.map .ok (t :: ts) ++ .error x :: later : List Token.Item).length + 2 := by
        rw [List.length_append]
        omega
      have hbuilt : Parser.Built .same True .anywhere 0 false _ _ _ :=
        Parser.built_statements hrounds hrounds (Nat.zero_le _) (Nat.zero_le _) trivial
      have hmore := hbuilt.eq_of_ne_starved (fun _ _ h => (forall₂_and_eq.mp h).2)
        (c := c.prolonged (.error x :: later) endOffset)
      have hmeets := (hbuilt.meets (c := c) (Option.some_ne_none t) x later endOffset).congr hmore
      cases hshorter : ofItems ((t :: ts).map .ok) 0 with
      | ok p =>
          obtain ⟨c₀, c', hstart, hread⟩ := read_of_ofItems hshorter
          obtain rfl : c = c₀ := Except.ok.inj hstart
          rw [hread] at hmeets
          obtain ⟨e, he, hreport⟩ :=
            (hmeets.1 (Parser.current_of_statements hread)).exists_error
          exact ⟨e, ofItems_of_read_error hlonger he, .inl hreport⟩
      | error e =>
          obtain ⟨c₀, hstart, hread⟩ := (ofItems_eq_error hshorter).resolve_left nofun
          obtain rfl : c = c₀ := Except.ok.inj hstart
          rw [hread] at hmeets
          rcases hmeets with hsame | hreports
          · exact ⟨e, ofItems_of_read_error hlonger hsame, .inr rfl⟩
          · obtain ⟨e', he', hreport⟩ := hreports.exists_error
            exact ⟨e', ofItems_of_read_error hlonger he', .inl hreport⟩

/-- Where the tokens before an error of the lexer are refused without it, the place lies before the
error. -/
theorem stop_le_of_ofItems {p : Nat} (hts : ∀ t ∈ ts, t.span.stop ≤ p)
    (h : ofItems (ts.map .ok) 0 = .error e) : e.span.stop ≤ p := by
  refine ((placed_ofItems (V := fun s => s.stop ≤ p) ?_ ?_ (Nat.zero_le _) (Nat.zero_le _)).2
    e h).span
  · intro item hitem
    obtain ⟨t, ht, rfl⟩ := List.mem_map.mp hitem
    exact hts t ht
  · exact fun ha hb => Nat.max_le.mpr ⟨ha, hb⟩

end Program

section Sources

variable {source : String} {ts : List Token} {x : LexError} {later : List Token.Item}

theorem lexSource_of_items (h : (ofSource source).items = ts.map .ok) :
    lexSource source = .ok ts := by
  rw [lexSource, h, Token.all?_map_ok]
  rfl

theorem lexSource_of_items_error
    (h : (ofSource source).items = ts.map .ok ++ .error x :: later) :
    lexSource source = .error (.lexical x) := by
  rw [lexSource, h, Token.all?_append_error]
  rfl

theorem items_of_lexSource (h : lexSource source = .ok ts) :
    (ofSource source).items = ts.map .ok := by
  rcases Token.Item.cases_first (ofSource source).items with ⟨ts', hitems⟩ | ⟨_, _, _, hitems⟩
  · rw [lexSource_of_items hitems] at h
    cases h
    exact hitems
  · rw [lexSource_of_items_error hitems] at h
    cases h

/-- The parser meets the first error of the lexer, or it stops before. -/
theorem parseSource_of_items_error
    (h : (ofSource source).items = ts.map .ok ++ .error x :: later) :
    parseSource source = .error (.lexical x) ∨
      ∃ e, parseSource source = .error (.grammatical e) ∧ e.span.stop ≤ x.span.start := by
  obtain ⟨e, hread, hcause⟩ := Program.ofItems_append_error ts x later
    (clampOffset source.utf8ByteSize)
  have hparse : parseSource source = .error (.ofParseError e) := by
    rw [parseSource, Program.parse, Program.ofStream, h]
    exact congrArg _ hread
  rcases hcause with ⟨hlexical, -⟩ | hrefused
  · rw [Failure.ofParseError_of_lexical hlexical] at hparse
    exact .inl hparse
  · rw [Failure.ofParseError_of_stated (Program.error_stated_of_ofItems hrefused)] at hparse
    have hordered := (laid_items source).pairwise
    rw [h] at hordered
    have hbefore : ∀ t ∈ ts, t.span.stop ≤ x.span.start := fun t ht =>
      (List.pairwise_append.mp hordered).2.2 (.ok t) (List.mem_map_of_mem ht) (.error x)
        List.mem_cons_self
    exact .inr ⟨e, hparse, Program.stop_le_of_ofItems hbefore hrefused⟩

end Sources

/-- A source that is parsed has no errors of the lexer, and one that the parser reports is the first
of them. Where there is a first one, the parser reports it or fails at a place before it. -/
theorem parseSource_lexSource (source : String) :
    (∀ p, parseSource source = .ok p → ∃ ts, lexSource source = .ok ts) ∧
      (∀ x, parseSource source = .error (.lexical x) → lexSource source = .error (.lexical x)) ∧
      ∀ f, lexSource source = .error f →
        ∃ (ts : List Token) (x : LexError) (later : List Token.Item),
          (ofSource source).items = ts.map .ok ++ .error x :: later ∧ f = .lexical x ∧
          (parseSource source = .error f ∨
            ∃ e, parseSource source = .error (.grammatical e) ∧
              e.span.stop ≤ x.span.start) := by
  rcases Token.Item.cases_first (ofSource source).items with
    ⟨ts, hitems⟩ | ⟨ts, x, later, hitems⟩
  · have hlex := lexSource_of_items hitems
    refine ⟨fun _ _ => ⟨ts, hlex⟩, fun x h => ?_, fun f h => nomatch hlex.symm.trans h⟩
    rcases parseSource_cases source with ⟨_, hsuccess, -⟩ | ⟨e, hfailure, hparse⟩
    · cases hsuccess.symm.trans h
    · rw [Failure.ofParseError_of_stated (Program.error_stated_of_parse hitems hparse)] at hfailure
      cases hfailure.symm.trans h
  · have hlex := lexSource_of_items_error hitems
    have hparse := parseSource_of_items_error hitems
    refine ⟨fun p h => ?_, fun x' h => ?_, fun f h => ?_⟩
    · rcases hparse with hlexical | ⟨e, hrefused, -⟩
      · cases hlexical.symm.trans h
      · cases hrefused.symm.trans h
    · rcases hparse with hlexical | ⟨e, hrefused, -⟩
      · cases hlexical.symm.trans h
        exact hlex
      · cases hrefused.symm.trans h
    · cases hlex.symm.trans h
      exact ⟨ts, x, later, hitems, rfl, hparse⟩

/-- A call that starts with tokens at these places. -/
private def callTokens (name paren argument : Nat) (rest : List Token) : List Token :=
  ⟨.identifier, "f", ⟨name, name + 1⟩⟩ :: ⟨.leftParen, "(", ⟨paren, paren + 1⟩⟩ ::
    ⟨.number, "1", ⟨argument, argument + 1⟩⟩ :: rest

private theorem items_closedCall : (ofSource "f(1);").items =
    (callTokens 0 1 2 [⟨.rightParen, ")", ⟨3, 4⟩⟩, ⟨.semicolon, ";", ⟨4, 5⟩⟩]).map .ok := by
  decide +kernel

/-- An error of the lexer behind an argument is met there; behind a token that is refused it is not
looked at. -/
theorem parseSource_lexSource_arguments :
    (∃ p ts, parseSource "f(1);" = .ok p ∧ lexSource "f(1);" = .ok ts) ∧
      (∃ x, parseSource "f(1 @" = .error (.lexical x) ∧
        lexSource "f(1 @" = .error (.lexical x)) ∧
      ∃ f x e, lexSource "f(1 2 @" = .error f ∧ f = .lexical x ∧
        parseSource "f(1 2 @" = .error (.grammatical e) ∧ e.span.stop ≤ x.span.start := by
  have hmistaken : (ofSource "f(1 @").items =
      (callTokens 0 1 2 []).map .ok ++ [.error ⟨.unexpectedCharacter '@', ⟨4, 5⟩⟩] := by
    decide +kernel
  have hrefused : (ofSource "f(1 2 @").items =
      (callTokens 0 1 2 [⟨.number, "2", ⟨4, 5⟩⟩]).map .ok ++
        [.error ⟨.unexpectedCharacter '@', ⟨6, 7⟩⟩] := by
    decide +kernel
  refine ⟨?_, ?_, ?_⟩
  · have hparse : ∃ p, parseSource "f(1);" = .ok p := by
      rw [parseSource, Program.parse, Program.ofStream, items_closedCall]
      exact ⟨_, rfl⟩
    obtain ⟨p, hp⟩ := hparse
    obtain ⟨ts, hts⟩ := (parseSource_lexSource "f(1);").1 p hp
    exact ⟨p, ts, hp, hts⟩
  · have hparse : parseSource "f(1 @" =
        .error (.lexical ⟨.unexpectedCharacter '@', ⟨4, 5⟩⟩) := by
      rw [parseSource, Program.parse, Program.ofStream, hmistaken]
      rfl
    exact ⟨_, hparse, (parseSource_lexSource "f(1 @").2.1 _ hparse⟩
  · have hlex := lexSource_of_items_error hrefused
    obtain ⟨ts, x, later, -, hx, hparse⟩ := (parseSource_lexSource "f(1 2 @").2.2 _ hlex
    rcases hparse with hlexical | ⟨e, he, hplace⟩
    · rw [parseSource, Program.parse, Program.ofStream, hrefused] at hlexical
      cases hlexical
    · exact ⟨_, x, e, hlex, hx, he, hplace⟩

namespace ParseError

variable {o : Nat → Nat}

/-- Answers that are the same at other offsets. -/
theorem movedAnswer_cases {α β : Type} {m : α → β} {r r' : Except ParseError α}
    (h : movedAnswer o m r = movedAnswer o m r') :
    (∃ a a', r = .ok a ∧ r' = .ok a' ∧ m a = m a') ∨
      ∃ e e', r = .error e ∧ r' = .error e' ∧ e.moved o = e'.moved o := by
  cases r with
  | ok a =>
      cases r' with
      | ok a' => exact .inl ⟨a, a', rfl, rfl, Except.ok.inj h⟩
      | error e' => cases h
  | error e =>
      cases r' with
      | ok a' => cases h
      | error e' => exact .inr ⟨e, e', rfl, rfl, Except.error.inj h⟩

end ParseError

namespace Program

variable {ts : List Token} {e : ParseError}

theorem bareItems_congr {s s' : String} {ts ts' : List Token}
    (h : (ofSource s).items = ts.map .ok) (h' : (ofSource s').items = ts'.map .ok)
    (hsame : ts.map (fun t => (t.kind, t.text)) = ts'.map (fun t => (t.kind, t.text))) :
    bareItems s.toList = bareItems s'.toList := by
  have hbare (s : String) (ts : List Token) (h : (ofSource s).items = ts.map .ok) :
      bareItems s.toList = (ts.map fun t => (t.kind, t.text)).map
        fun word => .ok ⟨word.1, word.2, ⟨0, 0⟩⟩ := by
    change (ofSource s).items.map _ = _
    rw [h, List.map_map, List.map_map]
    rfl
  rw [hbare s ts h, hbare s' ts' h', hsame]

/-- Layout does not matter: sources with the same tokens but for their places are read to the same
program up to places, or fail for the same reason in the same context. -/
theorem parse_layout {s s' : String} {ts ts' : List Token} (h : lexSource s = .ok ts)
    (h' : lexSource s' = .ok ts')
    (hsame : ts.map (fun t => (t.kind, t.text)) = ts'.map (fun t => (t.kind, t.text))) :
    (∃ p p', parse s = .ok p ∧ parse s' = .ok p' ∧ p.bare = p'.bare) ∨
      ∃ e e', parse s = .error e ∧ parse s' = .error e' ∧ e.cause = e'.cause ∧
        e.context = e'.context := by
  have hitems := items_of_lexSource h
  have hitems' := items_of_lexSource h'
  have hread := ofItems_bareItems s
  rw [bareItems_congr hitems hitems' hsame, ofItems_bareItems s'] at hread
  rcases ParseError.movedAnswer_cases hread.symm with hprograms | ⟨e, e', he, he', hmoved⟩
  · exact .inl hprograms
  · have hcause : e.cause.moved _ = e'.cause.moved _ := congrArg (·.cause) hmoved
    have hcontext : e.context = e'.context := congrArg (·.context) hmoved
    rw [ParseError.Cause.moved_of_stated (error_stated_of_parse hitems he),
      ParseError.Cause.moved_of_stated (error_stated_of_parse hitems' he')] at hcause
    exact .inr ⟨e, e', he, he', hcause, hcontext⟩

/-- A call on one line and on three, and calls that a semicolon ends too early. -/
theorem parse_layout_call :
    (∃ p p', parse "f(1);" = .ok p ∧ parse "f\n( 1 )\n;" = .ok p' ∧ p.bare = p'.bare) ∧
      ∃ e e', parse "f(1;" = .error e ∧ parse " f(1\n  ;" = .error e' ∧ e.cause = e'.cause ∧
        e.context = e'.context := by
  have hspread : (ofSource "f\n( 1 )\n;").items =
      (callTokens 0 2 4 [⟨.rightParen, ")", ⟨6, 7⟩⟩, ⟨.semicolon, ";", ⟨8, 9⟩⟩]).map .ok := by
    decide +kernel
  have hopen : (ofSource "f(1;").items =
      (callTokens 0 1 2 [⟨.semicolon, ";", ⟨3, 4⟩⟩]).map .ok := by
    decide +kernel
  have hshifted : (ofSource " f(1\n  ;").items =
      (callTokens 1 2 3 [⟨.semicolon, ";", ⟨7, 8⟩⟩]).map .ok := by
    decide +kernel
  refine ⟨?_, ?_⟩
  · refine (parse_layout (lexSource_of_items items_closedCall) (lexSource_of_items hspread)
      rfl).resolve_right ?_
    rintro ⟨e, -, he, -⟩
    rw [parse, ofStream, items_closedCall] at he
    cases he
  · refine (parse_layout (lexSource_of_items hopen) (lexSource_of_items hshifted)
      rfl).resolve_left ?_
    rintro ⟨p, -, hp, -⟩
    rw [parse, ofStream, hopen] at hp
    cases hp

end Program

end Clausal
