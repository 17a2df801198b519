import Clausal.Proofs.Grammar.Continuation
import Clausal.Proofs.Grammar.Completeness
import Clausal.Proofs.Grammar.Moving

/-!
What an error tells about the texts that begin with the rejected one. A text that ends too early
is the beginning of a program, which goes on with the tokens that are missing, each on a line of
its own. Any other error leaves no way to go on.
-/

namespace Clausal

open TokenStream

/-- A token that stands for itself where places are ignored. -/
theorem Token.Supplied.moved_eq {t : Token} (h : t.Supplied) : t.moved (fun _ => 0) = t := by
  have hitems := h.items_eq
  rw [bareItems, List.map_eq_cons_iff] at hitems
  obtain ⟨item, -, -, hitem, -⟩ := hitems
  cases item with
  | error e => cases hitem
  | ok t' =>
      obtain rfl := Except.ok.inj hitem
      rfl

/-- Tokens that can be supplied make up a text, with one of them on each line. -/
theorem exists_text {v : List Token} (hv : ∀ t ∈ v, t.Supplied) :
    ∃ b : String, bareItems b.toList = v.map .ok := by
  refine ⟨String.ofList (['\n'].intercalate (v.map (·.text.toList))), ?_⟩
  rw [String.toList_ofList, bareItems_intercalate, List.flatMap_map]
  induction v with
  | nil => rfl
  | cons t v ih =>
      rw [List.flatMap_cons, (hv t List.mem_cons_self).items_eq,
        ih fun t' ht' => hv t' (List.mem_cons_of_mem t ht')]
      rfl

namespace Program

theorem toList_append_line (a b : String) :
    (a ++ "\n" ++ b).toList = a.toList ++ '\n' :: b.toList := by
  simp

/-- A text whose tokens begin a program is gone on with by what is missing. -/
theorem exists_continuation {a : String} {w : List Token}
    (ha : (ofSource a).items = w.map .ok) (h : Opens Phrase.program.words w) :
    ∃ b p, parse (a ++ "\n" ++ b) = .ok p := by
  obtain ⟨v, hv, ⟨d⟩⟩ := h
  obtain ⟨b, hb⟩ := exists_text hv
  -- Whether a program is read does not hang on places, so the tokens are compared without them.
  have hbare : bareItems (a ++ "\n" ++ b).toList =
      ((w ++ v).map .ok).map (Token.Item.moved fun _ => 0) := by
    have hmoved : v.map (fun t => Token.Item.moved (fun _ => 0) (.ok t)) = v.map .ok :=
      List.map_congr_left fun t ht => congrArg Except.ok (hv t ht).moved_eq
    rw [toList_append_line, bareItems_append_newline, hb, bareItems]
    change (ofSource a).items.map _ ++ _ = _
    rw [ha, List.map_append, List.map_append, List.map_map (l := v)]
    exact congrArg _ hmoved.symm
  have hread := ofItems_bareItems (a ++ "\n" ++ b)
  rw [hbare, ofItems_moved (fun _ _ _ => Nat.le_refl 0) rfl _ 0, d.ofItems_eq_ok] at hread
  refine ⟨b, ?_⟩
  cases hparse : parse (a ++ "\n" ++ b) with
  | ok p => exact ⟨p, rfl⟩
  | error e =>
      rw [hparse] at hread
      cases hread

theorem parse_append_eq_error {a : String} {e : ParseError} (h : parse a = .error e)
    (hend : e.isUnexpectedEnd = false) (b : String) :
    parse (a ++ "\n" ++ b) = .error e ∨
      e.cause = .missingReturnType ∧ ∃ e', parse (a ++ "\n" ++ b) = .error e' := by
  have hitems : (ofSource (a ++ "\n" ++ b)).items =
      (ofSource a).items ++ itemsFrom (0 + Text.byteLength a.toList + 1) b.toList := by
    have hlines := itemsFrom_append_newline 0 a.toList b.toList
    rwa [← toList_append_line] at hlines
  rw [parse, ofStream, hitems]
  exact ofItems_append_eq_error h hend _ _

/-- An error at the end of the input means that the text is the beginning of a program. Any other
error, unless it is that a list of types is empty, is the error of every longer text. -/
theorem continuations_of_parse_error {a : String} {e : ParseError} (h : parse a = .error e) :
    (e.isUnexpectedEnd = true ↔ ∃ b p, parse (a ++ "\n" ++ b) = .ok p) ∧
      (e.isUnexpectedEnd = false → e.cause ≠ .missingReturnType →
        ∀ b, parse (a ++ "\n" ++ b) = .error e) := by
  refine ⟨⟨fun hend => ?_, ?_⟩, fun hend hcause b => ?_⟩
  · obtain ⟨w, hw, hopens⟩ := opens_of_unexpectedEnd h hend
    exact exists_continuation hw hopens
  · rintro ⟨b, p, hparse⟩
    by_contra hend
    rcases parse_append_eq_error h (Bool.eq_false_iff.mpr hend) b with hsame | ⟨-, e', hother⟩
    · rw [hsame] at hparse
      cases hparse
    · rw [hother] at hparse
      cases hparse
  · exact (parse_append_eq_error h hend b).resolve_right fun hmissing => hcause hmissing.1

/-- A call that is not closed is gone on with, and one that a semicolon ends too early is not. -/
theorem continuations_of_parse_error_openCall :
    parse "f(1" = .error ⟨.unexpectedEnd (.kind .rightParen), .point 3, some .callArguments⟩ ∧
      (∃ b p, parse ("f(1" ++ "\n" ++ b) = .ok p) ∧
      parse "f(1;" = .error
        ⟨.expectedToken .rightParen none .semicolon ";", ⟨3, 4⟩, some .callArguments⟩ ∧
      ∀ b, parse ("f(1;" ++ "\n" ++ b) = .error
        ⟨.expectedToken .rightParen none .semicolon ";", ⟨3, 4⟩, some .callArguments⟩ := by
  have hopen : (ofSource "f(1").items = [.ok ⟨.identifier, "f", ⟨0, 1⟩⟩,
      .ok ⟨.leftParen, "(", ⟨1, 2⟩⟩, .ok ⟨.number, "1", ⟨2, 3⟩⟩] := by
    decide +kernel
  have hstopped : (ofSource "f(1;").items = [.ok ⟨.identifier, "f", ⟨0, 1⟩⟩,
      .ok ⟨.leftParen, "(", ⟨1, 2⟩⟩, .ok ⟨.number, "1", ⟨2, 3⟩⟩,
      .ok ⟨.semicolon, ";", ⟨3, 4⟩⟩] := by
    decide +kernel
  have h₁ : parse "f(1" = .error
      ⟨.unexpectedEnd (.kind .rightParen), .point 3, some .callArguments⟩ := by
    rw [parse, ofStream, hopen]
    rfl
  have h₂ : parse "f(1;" = .error
      ⟨.expectedToken .rightParen none .semicolon ";", ⟨3, 4⟩, some .callArguments⟩ := by
    rw [parse, ofStream, hstopped]
    rfl
  exact ⟨h₁, (continuations_of_parse_error h₁).1.mp rfl, h₂,
    (continuations_of_parse_error h₂).2 rfl (by decide)⟩

end Program

end Clausal
