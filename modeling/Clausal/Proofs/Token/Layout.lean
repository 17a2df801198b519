import Mathlib
import Clausal.Proofs.Token.Extent

/-!
How the items of a source lie in it. They stand one after the other, each on a piece of the source
that is not empty, and nothing but blanks is left between them: reading loses nothing and makes up
nothing, whatever errors it meets. A line end lies between two items and in none, so the items of
two texts with a line end between them are those of the first and, further on, those of the second.
-/

namespace Clausal

namespace Lexeme

variable {c c' : Char} {cs : List Char}

theorem pair_unexpected {second : Char} {together : Token.Kind} {alone : Reading}
    (h : (pair second together alone cs).verdict = .error (.unexpectedCharacter c)) :
    pair second together alone cs = alone := by
  cases cs with
  | nil => rfl
  | cons d ds =>
      simp only [pair] at h ⊢
      split
      · next hd =>
        rw [if_pos hd] at h
        cases h
      · rfl

/-- A character is unexpected alone, and where it stands. -/
theorem symbol_unexpected (h : (symbol c cs).verdict = .error (.unexpectedCharacter c')) :
    symbol c cs = mistake (.unexpectedCharacter c) 0 ∧ c' = c := by
  have hpair {second : Char} {together : Token.Kind} {alone : Reading}
      (halone : alone.verdict = .error (.unexpectedCharacter c') →
        alone = mistake (.unexpectedCharacter c) 0 ∧ c' = c)
      (hread : (pair second together alone cs).verdict = .error (.unexpectedCharacter c')) :
      pair second together alone cs = mistake (.unexpectedCharacter c) 0 ∧ c' = c := by
    have hlone := pair_unexpected hread
    rw [hlone] at hread ⊢
    exact halone hread
  unfold symbol at h ⊢
  split at h
  iterate 4 exact hpair (fun hverdict => nomatch hverdict) h
  iterate 2 exact hpair (fun hverdict => ⟨rfl, by cases hverdict; rfl⟩) h
  · unfold slash at h
    split at h <;> cases h
  · split at h
    · cases h
    · cases h
      exact ⟨rfl, rfl⟩

theorem read_unexpected (h : (read c cs).verdict = .error (.unexpectedCharacter c')) :
    read c cs = mistake (.unexpectedCharacter c) 0 ∧ c' = c := by
  unfold read at h ⊢
  split at h
  · cases h
  · next hc =>
    rw [if_neg hc]
    split at h
    · simp only [number] at h
      repeat (first | cases h | split at h)
    · next hd =>
      rw [if_neg hd]
      split at h
      · simp only [string] at h
        split at h <;> cases h
      · next hq =>
        rw [if_neg hq]
        exact symbol_unexpected h

end Lexeme

theorem clampOffset_mono {m n : Nat} (h : m ≤ n) : clampOffset m ≤ clampOffset n := by
  simp only [clampOffset]
  omega

theorem Token.Item.moved_congr {item : Token.Item} {o o' : Nat → Nat}
    (hstart : o item.span.start = o' item.span.start)
    (hstop : o item.span.stop = o' item.span.stop) : item.moved o = item.moved o' := by
  cases item <;>
    simp_all [Token.Item.moved, Token.Item.span, Token.moved, LexError.moved, Span.moved]

/-- The item is made of this piece of a text, which starts at a byte offset. -/
structure Token.Item.Shows (item : Token.Item) (offset : Nat) (piece : List Char) : Prop where
  span : item.span = Span.ofRange offset (offset + Text.byteLength piece)
  text : ∀ t, item = .ok t → t.text = String.ofList piece
  unexpected : ∀ c s, item = .error ⟨.unexpectedCharacter c, s⟩ → piece = [c]

namespace TokenStream

open Lexeme Text

theorem shows_itemAt (offset : Nat) (c : Char) (cs : List Char) :
    (itemAt offset c cs).Shows offset (c :: cs.take (read c cs).more) := by
  simp only [itemAt]
  split
  · exact ⟨rfl, (fun t ht => by cases ht; rfl), fun _ _ he => by cases he⟩
  · next cause hverdict =>
    refine ⟨rfl, (fun _ ht => by cases ht), fun c' s he => ?_⟩
    cases he
    obtain ⟨hread, rfl⟩ := read_unexpected hverdict
    rw [hread]
    rfl

/-- The items stand in a text one after the other, from a byte offset on, each on a piece of it that
is not empty, and what stands on no piece is blank. -/
inductive Laid : Nat → List Char → List Token.Item → Prop
  | nothing (offset : Nat) : Laid offset [] []
  | blank {offset : Nat} {c : Char} {cs : List Char} {items : List Token.Item}
      (hc : isBlank c = true) (later : Laid (offset + c.utf8Size) cs items) :
      Laid offset (c :: cs) items
  | piece {offset : Nat} {piece cs : List Char} {item : Token.Item} {items : List Token.Item}
      (some : piece ≠ []) (shows : item.Shows offset piece)
      (later : Laid (offset + byteLength piece) cs items) :
      Laid offset (piece ++ cs) (item :: items)

/-- Nothing that stands before an item is left out, and nothing after it is read twice. The
induction is on the number of characters that are left, of which each step takes some. -/
theorem laid_itemsFrom (offset : Nat) (cs : List Char) : Laid offset cs (itemsFrom offset cs) := by
  induction h : cs.length using Nat.strongRecOn generalizing offset cs with
  | ind n ih =>
      cases cs with
      | nil =>
          rw [itemsFrom_nil]
          exact .nothing offset
      | cons c cs =>
          rw [List.length_cons] at h
          cases hc : isBlank c with
          | true =>
              rw [itemsFrom_of_blank hc]
              exact .blank hc (ih _ (by omega) _ _ rfl)
          | false =>
              have hdrop := List.length_drop (i := (read c cs).more) (l := cs)
              have hlater := ih (cs.drop (read c cs).more).length (by omega)
                (offset + byteLength (c :: cs.take (read c cs).more)) _ rfl
              have hpiece := Laid.piece (List.cons_ne_nil _ _) (shows_itemAt offset c cs) hlater
              rw [itemsFrom_cons hc]
              rwa [List.cons_append, List.take_append_drop] at hpiece

namespace Laid

variable {offset : Nat} {before cs : List Char} {item : Token.Item} {items : List Token.Item}

theorem exists_piece (h : Laid (byteLength before) cs items) (hitem : item ∈ items) :
    ∃ front piece back, before ++ cs = front ++ (piece ++ back) ∧ piece ≠ [] ∧
      item.Shows (byteLength front) piece := by
  generalize ho : byteLength before = offset at h
  induction h generalizing before with
  | nothing => cases hitem
  | @blank _ c cs items hc later ih =>
      subst ho
      have hoffset : byteLength (before ++ [c]) = byteLength before + c.utf8Size := by simp
      obtain ⟨front, piece, back, htext, hpiece⟩ := ih hitem hoffset
      exact ⟨front, piece, back, by rw [← htext]; simp, hpiece⟩
  | @piece _ piece cs first items some shows later ih =>
      subst ho
      rcases List.mem_cons.mp hitem with rfl | hitem
      · exact ⟨before, piece, cs, rfl, some, shows⟩
      · have hoffset := byteLength_append before piece
        obtain ⟨front, piece', back, htext, hpiece⟩ := ih hitem hoffset
        exact ⟨front, piece', back, by rw [← htext]; simp, hpiece⟩

theorem le_start (h : Laid offset cs items) (hitem : item ∈ items) :
    clampOffset offset ≤ item.span.start := by
  induction h with
  | nothing => cases hitem
  | blank hc later ih => exact Nat.le_trans (clampOffset_mono (Nat.le_add_right _ _)) (ih hitem)
  | piece some shows later ih =>
      rcases List.mem_cons.mp hitem with rfl | hitem
      · rw [shows.span]
        exact Nat.le_refl _
      · exact Nat.le_trans (clampOffset_mono (Nat.le_add_right _ _)) (ih hitem)

theorem pairwise (h : Laid offset cs items) :
    items.Pairwise fun a b => a.span.stop ≤ b.span.start := by
  induction h with
  | nothing => exact .nil
  | blank hc later ih => exact ih
  | piece some shows later ih =>
      refine List.pairwise_cons.mpr ⟨fun b hb => ?_, ih⟩
      rw [shows.span]
      exact later.le_start hb

/-- A character that is not blank stands on the piece of an item. -/
theorem exists_of_not_blank {front back : List Char} {c : Char} (h : Laid offset cs items)
    (htext : cs = front ++ c :: back) (hc : isBlank c = false) :
    ∃ item ∈ items, item.span.start ≤ clampOffset (offset + byteLength front) ∧
      clampOffset (offset + byteLength front + c.utf8Size) ≤ item.span.stop := by
  induction h generalizing front with
  | nothing => simp at htext
  | @blank offset d cs items hd later ih =>
      cases front with
      | nil =>
          obtain ⟨rfl, -⟩ := List.cons.inj htext
          rw [hc] at hd
          contradiction
      | cons d' front =>
          obtain ⟨rfl, hcs⟩ := List.cons.inj htext
          simpa only [byteLength_cons, Nat.add_assoc] using ih hcs
  | @piece offset piece cs first items some shows later ih =>
      rcases List.append_eq_append_iff.mp htext with ⟨front', rfl, hcs⟩ | ⟨rest, hpiece, hcs⟩
      -- The character stands after the piece of the first item.
      · obtain ⟨item, hitem, hspan⟩ := ih hcs
        refine ⟨item, List.mem_cons_of_mem _ hitem, ?_⟩
        simpa only [byteLength_append, Nat.add_assoc] using hspan
      · cases rest with
        | nil =>
            have hnext : cs = [] ++ c :: back := hcs.symm
            obtain ⟨item, hitem, hspan⟩ := ih hnext
            refine ⟨item, List.mem_cons_of_mem _ hitem, ?_⟩
            simpa [hpiece] using hspan
        | cons c' rest =>
            obtain ⟨rfl, -⟩ := List.cons.inj hcs
            refine ⟨first, List.mem_cons_self, ?_⟩
            rw [shows.span, hpiece, byteLength_append, byteLength_cons]
            exact ⟨clampOffset_mono (by omega), clampOffset_mono (by omega)⟩

end Laid

/-- The items are a reading of the source that leaves out blanks alone. -/
structure Faithful (source : String) (items : List Token.Item) : Prop where
  aligned : ∀ item ∈ items, item.span.Aligned source ∧ item.span.start < item.span.stop
  ordered : items.Pairwise fun a b => a.span.stop ≤ b.span.start
  text : ∀ t, .ok t ∈ items →
    slice? source.toList t.span.start t.span.stop = some t.text.toList
  unexpected : ∀ c s, .error ⟨.unexpectedCharacter c, s⟩ ∈ items →
    slice? source.toList s.start s.stop = some [c]
  blank : ∀ front c back, source.toList = front ++ c :: back → isBlank c = false →
    ∃ item ∈ items, item.span.start ≤ byteLength front ∧
      byteLength front + c.utf8Size ≤ item.span.stop

theorem byteLength_pos {cs : List Char} (h : cs ≠ []) : 0 < byteLength cs := by
  cases cs with
  | nil => contradiction
  | cons c cs =>
      have hc := c.utf8Size_pos
      rw [byteLength_cons]
      omega

section Source

variable {source : String} (hmax : source.utf8ByteSize ≤ maxOffset)

theorem laid_items (source : String) : Laid (byteLength []) source.toList (ofSource source).items :=
  laid_itemsFrom 0 source.toList

include hmax

/-- What stands at the span of an item is the piece that it is made of. -/
theorem exists_slice {item : Token.Item} (hitem : item ∈ (ofSource source).items) :
    ∃ piece, slice? source.toList item.span.start item.span.stop = some piece ∧
      item.span.start < item.span.stop ∧ item.Shows item.span.start piece := by
  obtain ⟨front, piece, back, htext, hsome, hshows⟩ := (laid_items source).exists_piece hitem
  rw [List.nil_append] at htext
  have hspan : item.span = ⟨byteLength front, byteLength front + byteLength piece⟩ := by
    have hlength := byteLength_toList source
    rw [htext, byteLength_append, byteLength_append] at hlength
    rw [hshows.span, Span.ofRange, clampOffset_of_le (by omega), clampOffset_of_le (by omega)]
  have hpos := byteLength_pos hsome
  rw [hspan, htext]
  exact ⟨piece, slice?_append front piece back, Nat.lt_add_of_pos_right hpos, hshows⟩

/-- An offset between two characters is recorded as it is. -/
theorem clampOffset_of_append {front back : List Char} (htext : source.toList = front ++ back) :
    clampOffset (byteLength front) = byteLength front := by
  have hlength := byteLength_toList source
  rw [htext, byteLength_append] at hlength
  exact clampOffset_of_le (by omega)

theorem exists_item_of_not_blank {front back : List Char} {c : Char}
    (htext : source.toList = front ++ c :: back) (hc : isBlank c = false) :
    ∃ item ∈ (ofSource source).items, item.span.start ≤ byteLength front ∧
      byteLength front + c.utf8Size ≤ item.span.stop := by
  have hnext : source.toList = (front ++ [c]) ++ back := by simpa using htext
  obtain ⟨item, hitem, hstart, hstop⟩ := (laid_items source).exists_of_not_blank htext hc
  have hfront := clampOffset_of_append hmax htext
  have hback := clampOffset_of_append hmax hnext
  rw [byteLength_append, byteLength_cons] at hback
  simp only [byteLength_nil, Nat.zero_add, Nat.add_zero] at hstart hstop hback
  exact ⟨item, hitem, hfront ▸ hstart, hback ▸ hstop⟩

end Source

/-- Where all offsets can be recorded, nothing is lost and nothing is made up. The spans start
before they end, cut no character and follow one another; the text of a token and the character
that an error names are what stands at the span; and what stands at no span is blank. -/
theorem items_faithful {source : String} (hsize : source.utf8ByteSize < 2 ^ 32) :
    Faithful source (ofSource source).items := by
  have hmax : source.utf8ByteSize ≤ maxOffset := Nat.le_of_lt_succ hsize
  refine ⟨fun item hitem => ?_, (laid_items source).pairwise, fun t ht => ?_, fun c s he => ?_,
    fun front c back htext hc => exists_item_of_not_blank hmax htext hc⟩
  · obtain ⟨-, -, hsome, -⟩ := exists_slice hmax hitem
    exact ⟨(covers_of_mem_source hitem).aligned hmax, hsome⟩
  · obtain ⟨piece, hslice, -, hshows⟩ := exists_slice hmax ht
    rw [hshows.text t rfl, String.toList_ofList]
    exact hslice
  · obtain ⟨piece, hslice, -, hshows⟩ := exists_slice hmax he
    rw [← hshows.unexpected c s rfl]
    exact hslice

/-- Each kind of error, a comment, and characters of more than one byte, blanks among them. -/
private def mixed : String := "1x é \"a\\\n& // €\n\u3000ok"

private def mixedItems : List Token.Item :=
  [.error ⟨.malformedNumber, ⟨0, 2⟩⟩, .error ⟨.unexpectedCharacter 'é', ⟨3, 5⟩⟩,
    .error ⟨.unterminatedString, ⟨6, 8⟩⟩, .error ⟨.unexpectedCharacter '\\', ⟨8, 9⟩⟩,
    .error ⟨.unexpectedCharacter '&', ⟨10, 11⟩⟩, .ok ⟨.comment, "// €", ⟨12, 18⟩⟩,
    .ok ⟨.identifier, "ok", ⟨22, 24⟩⟩]

theorem items_faithful_mixed : mixed.utf8ByteSize < 2 ^ 32 ∧ Faithful mixed mixedItems := by
  have hsize : mixed.utf8ByteSize < 2 ^ 32 := by decide
  have hitems : (ofSource mixed).items = mixedItems := by decide +kernel
  refine ⟨hsize, ?_⟩
  rw [← hitems]
  exact items_faithful hsize

/-- A line end is a barrier: what stands before it is read as if nothing came after it, and what
stands after it as if nothing came before it, but for the place, errors as well. -/
theorem items_append_newline {a b : String}
    (hsize : a.utf8ByteSize + b.utf8ByteSize < 2 ^ 32 - 1) :
    (ofSource (a ++ "\n" ++ b)).items =
      (ofSource a).items ++ (ofSource b).items.map (·.moved (a.utf8ByteSize + 1 + ·)) := by
  have hlines : (a ++ "\n" ++ b).toList = a.toList ++ '\n' :: b.toList := by simp
  -- No offset in the second text is cut off where it is recorded, before it moves or after.
  have hmoved : ∀ item ∈ (ofSource b).items,
      item.moved (shifted (a.utf8ByteSize + 1)) = item.moved (a.utf8ByteSize + 1 + ·) := by
    intro item hitem
    obtain ⟨hordered, hbounded⟩ := (covers_of_mem_source hitem).inside
    have hmax : a.utf8ByteSize + 1 + b.utf8ByteSize ≤ maxOffset := by
      simp only [maxOffset, UInt32.size]
      omega
    refine Token.Item.moved_congr (clampOffset_of_le ?_) (clampOffset_of_le ?_) <;> omega
  calc (ofSource (a ++ "\n" ++ b)).items
      = itemsFrom 0 (a.toList ++ '\n' :: b.toList) := by rw [items, ofSource, hlines]
    _ = itemsFrom 0 a.toList ++ itemsFrom (0 + byteLength a.toList + 1) b.toList :=
        itemsFrom_append_newline 0 a.toList b.toList
    _ = (ofSource a).items ++ (ofSource b).items.map (·.moved (shifted (a.utf8ByteSize + 1))) := by
        rw [byteLength_toList, Nat.zero_add, ← Nat.add_zero (a.utf8ByteSize + 1), itemsFrom_moved]
        rfl
    _ = (ofSource a).items ++ (ofSource b).items.map (·.moved (a.utf8ByteSize + 1 + ·)) := by
        rw [List.map_congr_left hmoved]

/-- The items of an open string with a backslash at its end, which goes on if the line does. -/
private def unfinishedItems : List Token.Item :=
  [.ok ⟨.identifier, "s", ⟨0, 1⟩⟩, .ok ⟨.assign, "=", ⟨2, 3⟩⟩,
    .error ⟨.unterminatedString, ⟨4, 6⟩⟩, .error ⟨.unexpectedCharacter '\\', ⟨6, 7⟩⟩]

/-- The items of a number with a point after it and a comment, where they start at an offset. -/
private def pointedItems (offset : Nat) : List Token.Item :=
  [.ok ⟨.number, "1", ⟨offset, offset + 1⟩⟩,
    .error ⟨.unexpectedCharacter '.', ⟨offset + 1, offset + 2⟩⟩,
    .ok ⟨.comment, "// é", ⟨offset + 3, offset + 8⟩⟩]

theorem items_append_newline_unfinished :
    "s = \"a\\".utf8ByteSize + "1.\n// é".utf8ByteSize < 2 ^ 32 - 1 ∧
      (ofSource ("s = \"a\\" ++ "\n" ++ "1.\n// é")).items =
        unfinishedItems ++ pointedItems 8 := by
  have hsize : "s = \"a\\".utf8ByteSize + "1.\n// é".utf8ByteSize < 2 ^ 32 - 1 := by decide
  have hfirst : (ofSource "s = \"a\\").items = unfinishedItems := by decide +kernel
  have hsecond : (ofSource "1.\n// é").items = pointedItems 0 := by decide +kernel
  refine ⟨hsize, ?_⟩
  rw [items_append_newline hsize, hfirst, hsecond]
  rfl

end TokenStream

end Clausal
