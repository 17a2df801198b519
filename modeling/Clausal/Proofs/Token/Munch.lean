import Clausal.Proofs.Token.Longest

/-!
The items of a source are the reading of it that takes as much as it can at every step. At each
place the longest word that a rule accepts is taken, and where none accepts any, one character is
unexpected. There is one such reading of a text, whatever it holds.
-/

namespace Clausal

/-- The items that a word of the rule makes at a byte offset: none if it is blank, or else one. -/
def Lexeme.Rule.items (r : Lexeme.Rule) (offset : Nat) (word : List Char) : List Token.Item :=
  let span := Span.ofRange offset (offset + Text.byteLength word)
  match r.verdict with
  | .ok .blank => []
  | .ok kind => [.ok ⟨kind, String.ofList word, span⟩]
  | .error cause => [.error ⟨cause, span⟩]

namespace TokenStream

open Lexeme Text

/-- The items of a text from a byte offset on, where as much is taken at each step as a rule allows.
What no rule takes is one unexpected character. -/
inductive Munched : Nat → List Char → List Token.Item → Prop
  | nothing (offset : Nat) : Munched offset [] []
  | taken {offset : Nat} {r : Rule} {word rest : List Char} {items : List Token.Item}
      (h : r.Takes word (word ++ rest)) (later : Munched (offset + byteLength word) rest items) :
      Munched offset (word ++ rest) (r.items offset word ++ items)
  | unexpected {offset : Nat} {c : Char} {cs : List Char} {items : List Token.Item}
      (h : Unmatched (c :: cs)) (later : Munched (offset + c.utf8Size) cs items) :
      Munched offset (c :: cs)
        (.error ⟨.unexpectedCharacter c, .ofRange offset (offset + c.utf8Size)⟩ :: items)

theorem itemsFrom_takeWhile_isBlank (offset : Nat) (cs : List Char) :
    itemsFrom offset cs =
      itemsFrom (offset + byteLength (cs.takeWhile isBlank)) (cs.dropWhile isBlank) := by
  induction cs generalizing offset with
  | nil => rfl
  | cons c cs ih =>
      cases hc : isBlank c with
      | true =>
          rw [itemsFrom_of_blank hc, ih, List.takeWhile_cons_of_pos hc,
            List.dropWhile_cons_of_pos hc, byteLength_cons, Nat.add_assoc]
      | false => simp [hc]

section Items

variable {offset : Nat} {r : Rule} {c : Char} {cs word rest text : List Char}
variable {items : List Token.Item}

theorem itemsFrom_of_taken (hr : r ≠ .blank) (hmem : c :: word ∈ r.pattern)
    (hc : isBlank c = false) (hread : read c (word ++ rest) = ⟨r.verdict, word.length⟩) :
    itemsFrom offset (c :: word ++ rest) =
      r.items offset (c :: word) ++ itemsFrom (offset + byteLength (c :: word)) rest := by
  have hitem : r.items offset (c :: word) = [itemAt offset c (word ++ rest)] := by
    rw [itemAt, hread, List.take_left, Rule.items]
    split
    · next hverdict => exact absurd (Rule.eq_blank_of_verdict hmem hverdict) hr
    · next hverdict => rw [hverdict]
    · next hverdict => rw [hverdict]
  rw [List.cons_append, itemsFrom_cons hc, hread, List.take_left, List.drop_left, hitem]
  rfl

theorem itemsFrom_of_unexpected (hc : isBlank c = false)
    (hread : read c cs = mistake (.unexpectedCharacter c) 0) :
    itemsFrom offset (c :: cs) =
      .error ⟨.unexpectedCharacter c, .ofRange offset (offset + c.utf8Size)⟩ ::
        itemsFrom (offset + c.utf8Size) cs := by
  rw [itemsFrom_cons hc, itemAt, hread]
  rfl

namespace Munched

theorem of_nil (h : Munched offset [] items) : items = [] := by
  generalize htext : [] = text at h
  cases h with
  | nothing => rfl
  | taken htakes => exact absurd (List.append_eq_nil_iff.mp htext.symm).1 htakes.some
  | unexpected => cases htext

/-- Where a rule takes a word, the items begin with those of the word. -/
theorem of_takes (h : Munched offset (word ++ rest) items) (htakes : r.Takes word (word ++ rest)) :
    ∃ later, Munched (offset + byteLength word) rest later ∧
      items = r.items offset word ++ later := by
  generalize htext : word ++ rest = text at h htakes
  cases h with
  | nothing => exact absurd (List.append_eq_nil_iff.mp htext).1 htakes.some
  | taken htakes' later =>
      obtain ⟨rfl, rfl⟩ := htakes.unique htakes'
      obtain rfl := List.append_cancel_left htext
      exact ⟨_, later, rfl⟩
  | unexpected hunmatched =>
      exact absurd (hunmatched r word htakes.front htakes.matched) htakes.some

/-- Where no rule takes a word, the items begin with the unexpected character. -/
theorem of_unmatched (h : Munched offset (c :: cs) items) (hunmatched : Unmatched (c :: cs)) :
    ∃ later, Munched (offset + c.utf8Size) cs later ∧
      items = .error ⟨.unexpectedCharacter c, .ofRange offset (offset + c.utf8Size)⟩ :: later := by
  generalize htext : c :: cs = text at h hunmatched
  cases h with
  | nothing => cases htext
  | taken htakes => exact absurd (hunmatched _ _ htakes.front htakes.matched) htakes.some
  | unexpected _ later =>
      cases htext
      exact ⟨_, later, rfl⟩

/-- The rules leave no choice: of two readings, each step of the one is the step of the other. -/
theorem unique {items' : List Token.Item} (h : Munched offset cs items)
    (h' : Munched offset cs items') : items = items' := by
  induction h generalizing items' with
  | nothing => exact h'.of_nil.symm
  | taken htakes later ih =>
      obtain ⟨later', hlater, rfl⟩ := h'.of_takes htakes
      rw [ih hlater]
  | unexpected hunmatched later ih =>
      obtain ⟨later', hlater, rfl⟩ := h'.of_unmatched hunmatched
      rw [ih hlater]

end Munched

end Items

/-- The induction is on the number of characters that are left, of which each step takes some. -/
theorem munched_itemsFrom (offset : Nat) (cs : List Char) :
    Munched offset cs (itemsFrom offset cs) := by
  induction h : cs.length using Nat.strongRecOn generalizing offset cs with
  | ind n ih =>
      cases cs with
      | nil =>
          rw [itemsFrom_nil]
          exact .nothing offset
      | cons c cs =>
          rw [List.length_cons] at h
          cases hc : isBlank c with
          | true =>
              have hdrop := (List.dropWhile_sublist (l := cs) isBlank).length_le
              have hlater := ih (cs.dropWhile isBlank).length (by omega)
                (offset + byteLength (c :: cs.takeWhile isBlank)) _ rfl
              have htext : c :: cs = c :: cs.takeWhile isBlank ++ cs.dropWhile isBlank := by
                rw [List.cons_append, List.takeWhile_append_dropWhile]
              have htakes : Rule.blank.Takes (c :: cs.takeWhile isBlank) (c :: cs) := blank_takes hc
              rw [itemsFrom_takeWhile_isBlank, List.takeWhile_cons_of_pos hc,
                List.dropWhile_cons_of_pos hc, htext]
              rw [htext] at htakes
              exact .taken htakes hlater
          | false =>
              have hexact : (read c cs).Exact c cs := read_exact hc
              generalize hread : read c cs = reading at hexact
              cases hexact with
              | taken front htakes hr =>
                  obtain ⟨rest, rfl⟩ := front
                  have hlater := ih rest.length (by simp at h; omega)
                  rw [← List.cons_append] at htakes ⊢
                  rw [itemsFrom_of_taken hr htakes.matched hc hread]
                  exact .taken htakes (hlater _ _ rfl)
              | unexpected hunmatched =>
                  rw [itemsFrom_of_unexpected hc hread]
                  exact .unexpected hunmatched (ih cs.length (by omega) _ _ rfl)

/-- The items of a source are the one reading of it that takes, at each place, the longest word that
a rule accepts. -/
theorem items_eq_iff_munched {source : String} {items : List Token.Item} :
    (ofSource source).items = items ↔ Munched 0 source.toList items := by
  constructor
  · rintro rfl
    exact munched_itemsFrom 0 source.toList
  · exact (munched_itemsFrom 0 source.toList).unique

end TokenStream

end Clausal
