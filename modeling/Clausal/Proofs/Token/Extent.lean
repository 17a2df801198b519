import Clausal.Proofs.Token.Lines

/-!
Where the items of a source stand. Each of them covers a part of the source, from one character to
another, so its span starts before it ends and lies within the source. Where all offsets can be
recorded, both of its ends are positions between two characters.
-/

namespace Clausal

namespace Text

theorem byteLength_eq_utf8ByteSize (cs : List Char) :
    byteLength cs = (String.ofList cs).utf8ByteSize := by
  induction cs with
  | nil => rfl
  | cons c cs ih =>
      rw [byteLength_cons, ih, String.ofList_cons, String.utf8ByteSize_append,
        String.utf8ByteSize_singleton]

theorem byteLength_toList (source : String) : byteLength source.toList = source.utf8ByteSize := by
  rw [byteLength_eq_utf8ByteSize, String.ofList_toList]

end Text

namespace Span

structure Inside (source : String) (s : Span) : Prop where
  ordered : s.start ≤ s.stop
  bounded : s.stop ≤ source.utf8ByteSize

/-- The span lies in the source and cuts no character. -/
structure Aligned (source : String) (s : Span) : Prop extends Inside source s where
  start_isValid : String.Pos.Raw.IsValid source ⟨s.start⟩
  stop_isValid : String.Pos.Raw.IsValid source ⟨s.stop⟩

variable {source : String} {a b : Span}

theorem Inside.merge (ha : a.Inside source) (hb : b.Inside source) :
    (a.merge b).Inside source := by
  obtain ⟨ha, ha'⟩ := ha
  obtain ⟨hb, hb'⟩ := hb
  exact ⟨by simp only [Span.merge]; omega, by simp only [Span.merge]; omega⟩

theorem Aligned.merge (ha : a.Aligned source) (hb : b.Aligned source) :
    (a.merge b).Aligned source := by
  refine ⟨ha.toInside.merge hb.toInside, ?_, ?_⟩
  · rcases Nat.le_total a.start b.start with h | h
    · simpa only [Span.merge, Nat.min_eq_left h] using ha.start_isValid
    · simpa only [Span.merge, Nat.min_eq_right h] using hb.start_isValid
  · rcases Nat.le_total a.stop b.stop with h | h
    · simpa only [Span.merge, Nat.max_eq_right h] using hb.stop_isValid
    · simpa only [Span.merge, Nat.max_eq_left h] using ha.stop_isValid

end Span

def Token.Item.span : Token.Item → Span
  | .ok t => t.span
  | .error e => e.span

namespace TokenStream

open Text

def Covers (text : List Char) (s : Span) : Prop :=
  ∃ before part after, text = before ++ (part ++ after) ∧
    s = Span.ofRange (byteLength before) (byteLength before + byteLength part)

theorem covers_itemAt (before : List Char) (c : Char) (cs : List Char) :
    Covers (before ++ c :: cs) (itemAt (byteLength before) c cs).span := by
  refine ⟨before, c :: cs.take (Lexeme.read c cs).more, cs.drop (Lexeme.read c cs).more, ?_, ?_⟩
  · rw [List.cons_append, List.take_append_drop]
  · unfold itemAt
    dsimp only
    split <;> rfl

/-- Every item covers a part of the text. The induction is on the number of characters that are
left, with those before them in front. -/
theorem covers_of_mem_items {before cs : List Char} {item : Token.Item}
    (h : item ∈ itemsFrom (byteLength before) cs) : Covers (before ++ cs) item.span := by
  induction hn : cs.length using Nat.strongRecOn generalizing before cs with
  | ind n ih =>
      cases cs with
      | nil =>
          rw [itemsFrom_nil] at h
          contradiction
      | cons c cs =>
          rw [List.length_cons] at hn
          cases hc : isBlank c with
          | true =>
              rw [itemsFrom_of_blank hc] at h
              have hlater : Covers (before ++ [c] ++ cs) item.span :=
                ih cs.length (by omega) (by simpa using h) rfl
              simpa using hlater
          | false =>
              rw [itemsFrom_cons hc, List.mem_cons] at h
              rcases h with rfl | h
              · exact covers_itemAt before c cs
              · have hdrop := List.length_drop (i := (Lexeme.read c cs).more) (l := cs)
                have hlater : Covers (before ++ c :: cs.take (Lexeme.read c cs).more ++
                    cs.drop (Lexeme.read c cs).more) item.span :=
                  ih (cs.drop (Lexeme.read c cs).more).length (by omega) (by simpa using h) rfl
                simpa using hlater

variable {source : String} {s : Span}

theorem Covers.inside (h : Covers source.toList s) : s.Inside source := by
  obtain ⟨before, part, after, htext, rfl⟩ := h
  have hsize := byteLength_toList source
  rw [htext, byteLength_append, byteLength_append] at hsize
  simp only [Span.ofRange, clampOffset]
  exact ⟨by dsimp only; omega, by dsimp only; omega⟩

theorem isValid_of_append {before after : List Char} (h : source.toList = before ++ after) :
    String.Pos.Raw.IsValid source ⟨byteLength before⟩ := by
  refine String.Pos.Raw.isValid_iff_exists_append.mpr
    ⟨String.ofList before, String.ofList after, ?_, ?_⟩
  · rw [← String.ofList_append, ← h, String.ofList_toList]
  · rw [byteLength_eq_utf8ByteSize]
    rfl

/-- Where offsets are recorded as they are, the ends of an item are ends of characters. -/
theorem Covers.aligned (h : Covers source.toList s) (hsize : source.utf8ByteSize ≤ maxOffset) :
    s.Aligned source := by
  have hinside := h.inside
  obtain ⟨before, part, after, htext, rfl⟩ := h
  have hlength := byteLength_toList source
  rw [htext, byteLength_append, byteLength_append] at hlength
  have hstart := isValid_of_append htext
  have hstop := isValid_of_append (htext.trans (List.append_assoc before part after).symm)
  rw [byteLength_append] at hstop
  rw [Span.ofRange, clampOffset_of_le (by omega), clampOffset_of_le (by omega)] at hinside ⊢
  exact ⟨hinside, hstart, hstop⟩

theorem covers_of_mem_source {item : Token.Item} (h : item ∈ (ofSource source).items) :
    Covers source.toList item.span := by
  have hcovers : Covers ([] ++ source.toList) item.span := covers_of_mem_items h
  rwa [List.nil_append] at hcovers

end TokenStream

end Clausal
