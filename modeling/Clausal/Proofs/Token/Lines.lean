import Clausal.Proofs.Token.Spelling

/-!
Reading line by line. No lexeme goes past the end of its line, and what follows that end has no
effect on it. So the items of a text are those of its first lines, and after them those of the
other lines. Where a text starts has an effect on the spans of its items only.
-/

namespace Clausal

namespace Lexeme

section Newline

variable (rest : List Char)

theorem runLength_append_newline {p : Char → Bool} (hp : p '\n' = false) (cs : List Char) :
    runLength p (cs ++ '\n' :: rest) = runLength p cs := by
  induction cs with
  | nil => simp [runLength, hp]
  | cons c cs ih =>
      simp only [runLength, List.cons_append, List.takeWhile_cons] at ih ⊢
      split
      · rw [List.length_cons, List.length_cons, ih]
      · rfl

theorem numberLength_append_newline (cs : List Char) :
    numberLength (cs ++ '\n' :: rest) = numberLength cs := by
  have hwhole := runLength_append_newline rest (p := isDigit) rfl cs
  have hdrop : (cs ++ '\n' :: rest).drop (runLength isDigit cs) =
      cs.drop (runLength isDigit cs) ++ '\n' :: rest :=
    List.drop_append_of_le_length (runLength_le isDigit cs)
  simp only [numberLength, hwhole, hdrop]
  cases cs.drop (runLength isDigit cs) with
  | nil => rfl
  | cons c fraction =>
      by_cases hc : c = '.'
      · subst hc
        simp only [List.cons_append, runLength_append_newline rest (p := isDigit) rfl fraction]
      · simp [hc]

theorem number_append_newline (cs : List Char) : number (cs ++ '\n' :: rest) = number cs := by
  have hlength := numberLength_append_newline rest cs
  have hdrop : (cs ++ '\n' :: rest).drop (numberLength cs) =
      cs.drop (numberLength cs) ++ '\n' :: rest :=
    List.drop_append_of_le_length (numberLength_le cs)
  simp only [number, hlength, hdrop]
  cases cs.drop (numberLength cs) with
  | nil => rfl
  | cons c later =>
      simp only [List.cons_append, runLength_append_newline rest (p := isWordChar) rfl later]

theorem stringLength_append_newline (cs : List Char) :
    stringLength (cs ++ '\n' :: rest) = stringLength cs := by
  induction cs using stringLength.induct with
  | case1 | case2 | case3 | case4 | case5 => rfl
  | case6 c cs hline _ _ _ ih =>
      simp only [List.cons_append, stringLength_of_escape _ hline, ih]
  | case7 c cs hquote hline hlast hescape _ _ _ ih =>
      have hslash : c ≠ '\\' := fun hc => by
        cases cs with
        | nil => exact hlast hc rfl
        | cons c' cs' => exact hescape c' cs' hc rfl
      simp only [List.cons_append, stringLength_of_plain _ hquote hline hslash, ih]

theorem word_append_newline (c : Char) (cs : List Char) :
    word c (cs ++ '\n' :: rest) = word c cs := by
  simp only [word, runLength_append_newline rest (p := isWordChar) rfl cs]
  rw [List.take_append_of_le_length (runLength_le isWordChar cs)]

theorem slash_append_newline (cs : List Char) : slash (cs ++ '\n' :: rest) = slash cs := by
  cases cs with
  | nil => rfl
  | cons c cs =>
      by_cases hc : c = '/'
      · subst hc
        simp only [List.cons_append, slash,
          runLength_append_newline rest (p := fun c => c != '\n') rfl cs]
      · simp [slash, hc]

theorem pair_append_newline {second : Char} (hsecond : second ≠ '\n') (together : Token.Kind)
    (alone : Reading) (cs : List Char) :
    pair second together alone (cs ++ '\n' :: rest) = pair second together alone cs := by
  cases cs with
  | nil => exact if_neg hsecond.symm
  | cons c cs => rfl

theorem symbol_append_newline (c : Char) (cs : List Char) :
    symbol c (cs ++ '\n' :: rest) = symbol c cs := by
  unfold symbol
  split
  iterate 6 exact pair_append_newline rest (by decide) _ _ cs
  · exact slash_append_newline rest cs
  · rfl

/-- The end of a line ends every lexeme on it, whatever follows. -/
theorem read_append_newline (c : Char) (cs : List Char) :
    read c (cs ++ '\n' :: rest) = read c cs := by
  simp only [read, word_append_newline, number_append_newline, string,
    stringLength_append_newline, symbol_append_newline]

end Newline

end Lexeme

def Span.moved (o : Nat → Nat) (s : Span) : Span := ⟨o s.start, o s.stop⟩

def Token.moved (o : Nat → Nat) (t : Token) : Token := { t with span := t.span.moved o }

def LexError.moved (o : Nat → Nat) (e : LexError) : LexError := { e with span := e.span.moved o }

def Token.Item.moved (o : Nat → Nat) : Token.Item → Token.Item
  | .ok t => .ok (t.moved o)
  | .error e => .error (e.moved o)

/-- Where an offset in a text is when so many bytes are put before the text. -/
def shifted (bytes n : Nat) : Nat := clampOffset (bytes + n)

theorem Span.moved_shifted_ofRange (bytes start stop : Nat) :
    (Span.ofRange start stop).moved (shifted bytes) =
      Span.ofRange (bytes + start) (bytes + stop) := by
  simp only [Span.moved, Span.ofRange, shifted, clampOffset, Span.mk.injEq]
  omega

theorem Token.Item.moved_moved (o o' : Nat → Nat) (item : Token.Item) :
    (item.moved o).moved o' = item.moved (o' ∘ o) := by
  cases item <;> rfl

namespace TokenStream

open Lexeme Text

theorem itemsFrom_cons {c : Char} (hc : isBlank c = false) (offset : Nat) (cs : List Char) :
    itemsFrom offset (c :: cs) = itemAt offset c cs ::
      itemsFrom (offset + byteLength (c :: cs.take (read c cs).more))
        (cs.drop (read c cs).more) := by
  rw [itemsFrom_eq]
  simp [read?, dropBlank, hc]

/-- The bytes that a lexeme takes, and those after it. -/
theorem byteLength_take_drop (n : Nat) (cs : List Char) :
    byteLength (cs.take n) + byteLength (cs.drop n) = byteLength cs := by
  rw [← byteLength_append, List.take_append_drop]

theorem itemAt_append_newline (offset : Nat) (c : Char) (cs rest : List Char) :
    itemAt offset c (cs ++ '\n' :: rest) = itemAt offset c cs := by
  simp only [itemAt, read_append_newline]
  rw [List.take_append_of_le_length (read_more_le c cs)]

/-- The end of a line parts the items before it from those after it, errors as well. The induction
is on the number of characters before it, of which each lexeme takes some. -/
theorem itemsFrom_append_newline (offset : Nat) (cs rest : List Char) :
    itemsFrom offset (cs ++ '\n' :: rest) =
      itemsFrom offset cs ++ itemsFrom (offset + byteLength cs + 1) rest := by
  induction h : cs.length using Nat.strongRecOn generalizing offset cs with
  | ind n ih =>
      cases cs with
      | nil =>
          rw [itemsFrom_nil, List.nil_append, itemsFrom_of_blank isBlank_newline]
          rfl
      | cons c cs =>
          rw [List.length_cons] at h
          rw [List.cons_append, byteLength_cons]
          cases hc : isBlank c with
          | true =>
              rw [itemsFrom_of_blank hc, itemsFrom_of_blank hc, ih _ (by omega) _ _ rfl]
              simp only [Nat.add_assoc]
          | false =>
              have hmore := read_more_le c cs
              have hbytes := byteLength_take_drop (read c cs).more cs
              have hdrop := List.length_drop (i := (read c cs).more) (l := cs)
              rw [itemsFrom_cons hc, itemsFrom_cons hc, itemAt_append_newline,
                read_append_newline, List.take_append_of_le_length hmore,
                List.drop_append_of_le_length hmore, ih _ (by omega) _ _ rfl, List.cons_append]
              congr 3
              rw [byteLength_cons]
              omega

theorem itemAt_moved (bytes offset : Nat) (c : Char) (cs : List Char) :
    itemAt (bytes + offset) c cs = (itemAt offset c cs).moved (shifted bytes) := by
  simp only [itemAt]
  split <;> simp only [Token.Item.moved, Token.moved, LexError.moved,
    Span.moved_shifted_ofRange, Nat.add_assoc]

/-- A text that starts later has the same items, at other offsets. -/
theorem itemsFrom_moved (bytes offset : Nat) (cs : List Char) :
    itemsFrom (bytes + offset) cs = (itemsFrom offset cs).map (·.moved (shifted bytes)) := by
  induction h : cs.length using Nat.strongRecOn generalizing offset cs with
  | ind n ih =>
      cases cs with
      | nil => rw [itemsFrom_nil, itemsFrom_nil, List.map_nil]
      | cons c cs =>
          rw [List.length_cons] at h
          cases hc : isBlank c with
          | true =>
              rw [itemsFrom_of_blank hc, itemsFrom_of_blank hc, Nat.add_assoc,
                ih _ (by omega) _ _ rfl]
          | false =>
              have hdrop := List.length_drop (i := (read c cs).more) (l := cs)
              rw [itemsFrom_cons hc, itemsFrom_cons hc, Nat.add_assoc, ih _ (by omega) _ _ rfl,
                itemAt_moved, List.map_cons]

def bareItems (cs : List Char) : List Token.Item := (itemsFrom 0 cs).map (·.moved fun _ => 0)

theorem bareItems_nil : bareItems [] = [] := by
  rw [bareItems, itemsFrom_nil, List.map_nil]

theorem map_moved_itemsFrom (offset : Nat) (cs : List Char) :
    ((itemsFrom offset cs).map (·.moved fun _ => 0)) = bareItems cs := by
  rw [← Nat.add_zero offset, itemsFrom_moved, List.map_map, bareItems]
  exact List.map_congr_left fun item _ => item.moved_moved _ _

theorem bareItems_append_newline (cs rest : List Char) :
    bareItems (cs ++ '\n' :: rest) = bareItems cs ++ bareItems rest := by
  rw [bareItems, itemsFrom_append_newline, List.map_append, map_moved_itemsFrom,
    map_moved_itemsFrom]

/-- The items of some lines are those of each line. -/
theorem bareItems_intercalate (lines : List (List Char)) :
    bareItems (['\n'].intercalate lines) = lines.flatMap bareItems := by
  induction lines with
  | nil => exact bareItems_nil
  | cons line lines ih =>
      cases lines with
      | nil => simp [List.intercalate]
      | cons next lines =>
          rw [List.intercalate_cons_cons, List.append_assoc, List.singleton_append,
            bareItems_append_newline, ih]
          rfl

theorem bareItems_flatMap (lines : List (List Char)) :
    bareItems (lines.flatMap (· ++ ['\n'])) = lines.flatMap bareItems := by
  induction lines with
  | nil => exact bareItems_nil
  | cons line lines ih =>
      rw [List.flatMap_cons, List.append_assoc, List.singleton_append, bareItems_append_newline,
        ih]
      rfl

theorem exists_tokens_of_moved {items : List Token.Item} {w : List Token}
    (h : items.map (·.moved fun _ => 0) = w.map .ok) :
    ∃ ts : List Token, items = ts.map .ok ∧ w = ts.map (·.moved fun _ => 0) := by
  induction items generalizing w with
  | nil =>
      obtain rfl := List.map_eq_nil_iff.mp h.symm
      exact ⟨[], rfl, rfl⟩
  | cons item items ih =>
      cases w with
      | nil => cases h
      | cons t w =>
          obtain ⟨hitem, hitems⟩ := List.cons.inj h
          obtain ⟨ts, rfl, rfl⟩ := ih hitems
          cases item with
          | error e => cases hitem
          | ok t' => exact ⟨t' :: ts, rfl, congrArg (· :: _) (Except.ok.inj hitem).symm⟩

/-- Items without errors, from tokens that are known up to their places. -/
theorem exists_tokens_of_bareItems {source : String} {w : List Token}
    (h : bareItems source.toList = w.map .ok) :
    ∃ ts : List Token, (ofSource source).items = ts.map .ok ∧ w = ts.map (·.moved fun _ => 0) :=
  exists_tokens_of_moved h

end TokenStream

end Clausal
