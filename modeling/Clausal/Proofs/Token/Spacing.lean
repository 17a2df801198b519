import Clausal.Proofs.Token.Layout
import Clausal.Proofs.Token.Munch

/-!
Blanks part tokens and do nothing else. No lexeme but a comment goes on over a blank, so texts that
are one token each, with blanks between them, are read to those tokens in their order, whatever the
tokens and whatever the blanks.
-/

namespace Clausal

/-- A text that is one token on its own, and no comment, with the blanks that follow it. -/
structure SpacedWord where
  text : String
  token : Token
  gap : String
  alone : (TokenStream.ofSource text).items = [.ok token]
  kind : token.kind ≠ .comment
  blank : gap.toList.all Text.isBlank = true

def spaced : List SpacedWord → String
  | [] => ""
  | word :: words => word.text ++ word.gap ++ spaced words

namespace Lexeme

theorem isBlank_of_isWordChar {c : Char} (h : isWordChar c = true) : Text.isBlank c = false := by
  rw [isWordChar, Bool.or_eq_true] at h
  exact h.elim isBlank_of_isWordStart isBlank_of_isDigit

/-- A blank goes on with no lexeme but a comment. -/
theorem separates_of_blank {kind : Token.Kind} {rest : List Char} (hkind : kind ≠ .comment)
    (hrest : ∀ c ∈ rest.head?, Text.isBlank c = true) : Separates kind rest := by
  intro c hc
  have hblank := hrest c hc
  refine ⟨fun _ => ?_, fun _ => ?_, fun hcomment => absurd hcomment hkind, fun _ => ?_⟩
  · rw [Bool.eq_false_iff]
    intro hword
    rw [isBlank_of_isWordChar hword] at hblank
    contradiction
  · rintro rfl
    contradiction
  · intro hmem
    simp only [List.mem_cons, List.not_mem_nil, or_false] at hmem
    rcases hmem with rfl | rfl | rfl <;> contradiction

end Lexeme

namespace TokenStream

open Lexeme Text

theorem bareItems_of_blank {gap : List Char} (hgap : gap.all isBlank = true)
    (cs : List Char) : bareItems (gap ++ cs) = bareItems cs := by
  induction gap with
  | nil => rfl
  | cons c gap ih =>
      rw [List.all_cons, Bool.and_eq_true] at hgap
      rw [List.cons_append, bareItems, itemsFrom_of_blank hgap.1, map_moved_itemsFrom]
      exact ih hgap.2

theorem bareItems_of_stands {kind : Token.Kind} {text rest : List Char}
    (h : Stands kind text rest) :
    bareItems (text ++ rest) = .ok ⟨kind, .ofList text, ⟨0, 0⟩⟩ :: bareItems rest := by
  rw [bareItems, itemsFrom_of_stands h, List.map_cons, map_moved_itemsFrom]
  rfl

/-- A text without items holds blanks alone. -/
theorem all_isBlank_of_itemsFrom_eq_nil {offset : Nat} {cs : List Char}
    (h : itemsFrom offset cs = []) : cs.all isBlank = true := by
  induction cs generalizing offset with
  | nil => rfl
  | cons c cs ih =>
      cases hc : isBlank c with
      | false =>
          rw [itemsFrom_cons hc] at h
          cases h
      | true =>
          rw [itemsFrom_of_blank hc] at h
          rw [List.all_cons, hc, ih h]
          rfl

/-- A text that is one token is the text of the token with blanks around it. -/
theorem exists_blanks_of_items {text : String} {t : Token}
    (h : (ofSource text).items = [.ok t]) :
    ∃ front back, text.toList = front ++ t.text.toList ++ back ∧
      front.all isBlank = true ∧ back.all isBlank = true ∧
      ∃ rest, Stands t.kind t.text.toList rest := by
  have hmem : .ok t ∈ (ofSource text).items := by simp [h]
  have hstands := stands_of_mem_items hmem
  have hsplit := text.toList.takeWhile_append_dropWhile (p := isBlank)
  change itemsFrom 0 text.toList = _ at h
  rw [itemsFrom_takeWhile_isBlank] at h
  cases hrest : text.toList.dropWhile isBlank with
  | nil =>
      rw [hrest, itemsFrom_nil] at h
      cases h
  | cons c cs =>
      have hc : isBlank c = false := by
        simpa [hrest] using List.head?_dropWhile_not isBlank text.toList
      rw [hrest, itemsFrom_cons hc] at h
      obtain ⟨hitem, hitems⟩ := List.cons.inj h
      have htext := (shows_itemAt _ c cs).text t hitem
      refine ⟨text.toList.takeWhile isBlank, cs.drop (read c cs).more, ?_,
        List.all_takeWhile, all_isBlank_of_itemsFrom_eq_nil hitems, hstands⟩
      rw [htext, String.toList_ofList, List.append_assoc, List.cons_append,
        List.take_append_drop, ← hrest, hsplit]

/-- A word is read to its token where it stands, if a blank or nothing follows it. -/
theorem bareItems_word (word : SpacedWord) {rest : List Char}
    (hrest : ∀ c ∈ (word.gap.toList ++ rest).head?, isBlank c = true) :
    bareItems (word.text.toList ++ word.gap.toList ++ rest) =
      .ok (word.token.moved fun _ => 0) :: bareItems rest := by
  obtain ⟨front, back, htext, hfront, hback, later, hstands⟩ := exists_blanks_of_items word.alone
  have hhead : ∀ c ∈ (back ++ (word.gap.toList ++ rest)).head?, isBlank c = true := by
    cases back with
    | nil => exact hrest
    | cons d back => simpa using List.all_eq_true.mp hback d List.mem_cons_self
  have hnext : Stands word.token.kind word.token.text.toList (back ++ (word.gap.toList ++ rest)) :=
    hstands.follow (separates_of_blank word.kind hhead)
  calc bareItems (word.text.toList ++ word.gap.toList ++ rest)
      = bareItems (front ++ (word.token.text.toList ++ (back ++ (word.gap.toList ++ rest)))) := by
        simp only [htext, List.append_assoc]
    _ = bareItems (word.token.text.toList ++ (back ++ (word.gap.toList ++ rest))) :=
        bareItems_of_blank hfront _
    _ = .ok ⟨word.token.kind, .ofList word.token.text.toList, ⟨0, 0⟩⟩ ::
          bareItems (back ++ (word.gap.toList ++ rest)) := bareItems_of_stands hnext
    _ = .ok (word.token.moved fun _ => 0) :: bareItems rest := by
        rw [bareItems_of_blank hback, bareItems_of_blank word.blank, String.ofList_toList]
        rfl

/-- The induction is on the words, of which each but the last has a blank after it. -/
theorem bareItems_spaced {words : List SpacedWord} (hapart : ∀ w ∈ words.dropLast, w.gap ≠ "") :
    bareItems (spaced words).toList = (words.map (·.token.moved fun _ => 0)).map .ok := by
  induction words with
  | nil => exact bareItems_nil
  | cons word words ih =>
      have hrest : ∀ c ∈ (word.gap.toList ++ (spaced words).toList).head?, isBlank c = true := by
        cases hgap : word.gap.toList with
        | cons d gap =>
            have hblank := word.blank
            rw [hgap, List.all_cons, Bool.and_eq_true] at hblank
            simpa using hblank.1
        | nil =>
            cases words with
            | nil => simp [spaced]
            | cons next words =>
                have hsome : word.gap ≠ "" := hapart word List.mem_cons_self
                exact absurd (String.toList_eq_nil_iff.mp hgap) hsome
      have hlater : ∀ w ∈ words.dropLast, w.gap ≠ "" := by
        cases words with
        | nil => simp
        | cons next words => exact fun w hw => hapart w (List.mem_cons_of_mem word hw)
      rw [spaced, String.toList_append, String.toList_append, bareItems_word word hrest, ih hlater]
      rfl

/-- Blanks are of no account between tokens: words that are one token each are read to their tokens,
in their order, wherever blanks part each word from the next. -/
theorem items_spaced {front : String} {words : List SpacedWord}
    (hfront : front.toList.all isBlank = true)
    (hapart : ∀ w ∈ words.dropLast, w.gap ≠ "") :
    ∃ ts : List Token, (ofSource (front ++ spaced words)).items = ts.map .ok ∧
      ts.map (fun t => (t.kind, t.text)) = words.map fun w => (w.token.kind, w.token.text) := by
  have hbare : bareItems (front ++ spaced words).toList =
      (words.map (·.token.moved fun _ => 0)).map .ok := by
    rw [String.toList_append, bareItems_of_blank hfront, bareItems_spaced hapart]
  obtain ⟨ts, hitems, hts⟩ := exists_tokens_of_bareItems hbare
  refine ⟨ts, hitems, ?_⟩
  have hmap := congrArg (List.map fun t : Token => (t.kind, t.text)) hts
  rw [List.map_map, List.map_map] at hmap
  exact hmap.symm

/-- Words that together would be others: an arrow, a comparison, a comment and a longer number. The
text of the first has blanks of its own, and one is a string with blanks and slashes in it. -/
private def partedWords : List SpacedWord :=
  [⟨"\t- ", ⟨.arithOp, "-", ⟨1, 2⟩⟩, "\u2028", by decide +kernel, by decide, by decide +kernel⟩,
    ⟨">", ⟨.compareOp, ">", ⟨0, 1⟩⟩, "\u3000\n", by decide +kernel, by decide, by decide +kernel⟩,
    ⟨"=", ⟨.assign, "=", ⟨0, 1⟩⟩, " ", by decide +kernel, by decide, by decide +kernel⟩,
    ⟨"\"€ // \"", ⟨.string, "\"€ // \"", ⟨0, 9⟩⟩, "\u0085", by decide +kernel, by decide,
      by decide +kernel⟩,
    ⟨"/", ⟨.arithOp, "/", ⟨0, 1⟩⟩, "\n", by decide +kernel, by decide, by decide +kernel⟩,
    ⟨"/", ⟨.arithOp, "/", ⟨0, 1⟩⟩, "\u00a0", by decide +kernel, by decide, by decide +kernel⟩,
    ⟨"1.5", ⟨.number, "1.5", ⟨0, 3⟩⟩, "\u202f", by decide +kernel, by decide, by decide +kernel⟩,
    ⟨"5", ⟨.number, "5", ⟨0, 1⟩⟩, "\x0b", by decide +kernel, by decide, by decide +kernel⟩,
    ⟨"_x", ⟨.identifier, "_x", ⟨0, 2⟩⟩, "", by decide +kernel, by decide, by decide +kernel⟩]

private def partedText : String :=
  "\u1680\t- \u2028>\u3000\n= \"€ // \"\u0085/\n/\u00a01.5\u202f5\x0b_x"

theorem items_spaced_parted :
    "\u1680".toList.all isBlank = true ∧ (∀ w ∈ partedWords.dropLast, w.gap ≠ "") ∧
      ∃ ts : List Token, (ofSource partedText).items = ts.map .ok ∧
        ts.map (fun t => (t.kind, t.text)) =
          [(.arithOp, "-"), (.compareOp, ">"), (.assign, "="), (.string, "\"€ // \""),
            (.arithOp, "/"), (.arithOp, "/"), (.number, "1.5"), (.number, "5"),
            (.identifier, "_x")] := by
  have htext : "\u1680" ++ spaced partedWords = partedText := by decide +kernel
  have hfront : "\u1680".toList.all isBlank = true := by decide +kernel
  have hapart : ∀ w ∈ partedWords.dropLast, w.gap ≠ "" := by
    simp [partedWords]
  refine ⟨hfront, hapart, ?_⟩
  rw [← htext]
  exact items_spaced hfront hapart

end TokenStream

end Clausal
