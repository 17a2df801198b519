import Clausal.Proofs.Grammar.Soundness
import Clausal.Proofs.Grammar.Completeness
import Clausal.Proofs.Session.Nesting

/-!
When the loop waits for more. The test of an input counts brackets and looks at the last token,
and knows nothing of the grammar. It agrees with the parser all the same: a program closes its
brackets and ends like a statement, and the beginning of a program that passes the test ends
between two statements, so it is a program itself and nothing is missing in it.
-/

namespace Clausal

/-- The beginning of a program that passes the test is read to its end. -/
theorem Complete.program {w : List Token} (h : Complete w)
    (hopens : Opens Phrase.program.words w) : Nonempty (Derivation .program w) := by
  obtain ⟨v, -, ⟨d⟩⟩ := hopens
  obtain ⟨d₁, -, -⟩ := d.exists_split rfl h
  exact ⟨d₁⟩

theorem parseSource_eq_grammatical {input : String} {e : ParseError}
    (h : parseSource input = .error (.grammatical e)) : Program.parse input = .error e := by
  rcases parseSource_cases input with ⟨p, hp, -⟩ | ⟨e', he, hprogram⟩
  · cases hp.symm.trans h
  · have hfailure : Failure.ofParseError e' = .grammatical e :=
      Except.error.inj (he.symm.trans h)
    unfold Failure.ofParseError at hfailure
    split at hfailure
    · cases hfailure
    · cases hfailure
      exact hprogram

/-- What the parser accepts is not waited for, and where the parser finds the end of the input too
early the loop waits for more. That is so for brackets that are counted without a bound, and for the
count in 32 bits as long as it does not wrap around. -/
theorem isInputComplete_agrees (input : String) :
    (∀ p, parseSource input = .ok p →
      isInputCompleteBy (nesting · ≤ 0) input = true ∧ isInputComplete input = true) ∧
    ∀ e, parseSource input = .error (.grammatical e) → e.isUnexpectedEnd = true →
      isInputCompleteBy (nesting · ≤ 0) input = false ∧
        ((∀ ts, lexSource input = .ok ts → nesting ts < 2 ^ 31) →
          isInputComplete input = false) := by
  refine ⟨fun p hparse => ?_, fun e hparse hend => ?_⟩
  · rcases parseSource_cases input with ⟨q, -, hprogram⟩ | ⟨e, he, -⟩
    · obtain ⟨w, d, hitems, -⟩ := Program.derivation_of_ofItems hprogram
      exact ⟨(isInputCompleteBy_nesting_iff hitems).mpr d.complete,
        (isInputComplete_iff hitems).mpr d.passes⟩
    · cases he.symm.trans hparse
  · have herror := parseSource_eq_grammatical hparse
    obtain ⟨w, hitems, hopens⟩ := Program.opens_of_unexpectedEnd herror hend
    have hincomplete : ¬ Complete w := by
      intro hcomplete
      obtain ⟨d⟩ := hcomplete.program hopens
      have hok := d.ofItems_eq_ok (clampOffset input.utf8ByteSize)
      rw [← hitems] at hok
      rw [Program.parse, Program.ofStream] at herror
      cases herror.symm.trans hok
    refine ⟨Bool.eq_false_iff.mpr ?_, fun hfits => Bool.eq_false_iff.mpr ?_⟩
    · rwa [Ne, isInputCompleteBy_nesting_iff hitems]
    · have hlex : lexSource input = .ok w := by
        rw [lexSource, hitems, Token.all?_map_ok]
        rfl
      have hcounted : ¬ Miscounted w := fun h =>
        absurd (hfits w hlex) (Int.not_lt.mpr h.le_nesting)
      rw [Ne, isInputComplete_iff hitems]
      exact fun hpasses => hincomplete (hpasses.complete hcounted)

/-- A bracket in a comment is not waited for; one after the statement is. -/
theorem isInputComplete_agrees_brackets :
    (∃ p, parseSource "x; // (" = .ok p) ∧
      (isInputCompleteBy (nesting · ≤ 0) "x; // (" = true ∧ isInputComplete "x; // (" = true) ∧
      (∃ e, parseSource "x; (" = .error (.grammatical e) ∧ e.isUnexpectedEnd = true) ∧
      isInputCompleteBy (nesting · ≤ 0) "x; (" = false ∧ isInputComplete "x; (" = false := by
  have hremark : (TokenStream.ofSource "x; // (").items = [.ok ⟨.identifier, "x", ⟨0, 1⟩⟩,
      .ok ⟨.semicolon, ";", ⟨1, 2⟩⟩, .ok ⟨.comment, "// (", ⟨3, 7⟩⟩] := by
    decide +kernel
  have hopen : (TokenStream.ofSource "x; (").items = [.ok ⟨.identifier, "x", ⟨0, 1⟩⟩,
      .ok ⟨.semicolon, ";", ⟨1, 2⟩⟩, .ok ⟨.leftParen, "(", ⟨3, 4⟩⟩] := by
    decide +kernel
  have hok : parseSource "x; // (" = .ok ⟨[.expression (.ident "x" ⟨0, 1⟩) ⟨0, 2⟩,
      .comment "// (" ⟨3, 7⟩]⟩ := by
    rw [parseSource, Program.parse, Program.ofStream, hremark]
    rfl
  have herror : parseSource "x; (" = .error (.grammatical
      ⟨.unexpectedEnd .expression, .point 4, some .parenthesized⟩) := by
    rw [parseSource, Program.parse, Program.ofStream, hopen]
    rfl
  obtain ⟨hunbounded, hbounded⟩ := (isInputComplete_agrees "x; (").2 _ herror rfl
  refine ⟨⟨_, hok⟩, (isInputComplete_agrees "x; // (").1 _ hok, ⟨_, herror, rfl⟩, hunbounded,
    hbounded fun ts hlex => ?_⟩
  rw [lexSource, hopen] at hlex
  obtain rfl := Except.ok.inj hlex
  decide

end Clausal
