import Mathlib.Data.List.DropRight
import Clausal.Proofs.Token.Layout
import Clausal.Report.Lines

/-!
Lines and columns against a plain scan of the source. Halving the table of the line starts finds the
last one that an offset has passed, so the line of an offset is told by the line ends before it,
past the end of the source, on a line end and on a line start as anywhere else. The column counts
the characters since the last line end, and the text of a line is what stands between two of them.
-/

namespace Clausal

namespace Text

theorem length_le_byteLength (cs : List Char) : cs.length ≤ byteLength cs := by
  induction cs with
  | nil => exact Nat.le_refl _
  | cons c cs ih =>
      have hpos := c.utf8Size_pos
      rw [List.length_cons, byteLength_cons]
      omega

def encoded (cs : List Char) : List UInt8 := cs.flatMap String.utf8EncodeChar

theorem encoded_toList (source : String) : encoded source.toList = source.toUTF8.data.toList := by
  have hbytes : source.toUTF8 = (encoded source.toList).toByteArray := String.utf8Encode_toList.symm
  rw [hbytes, List.data_toByteArray]

theorem encoded_append (cs ds : List Char) : encoded (cs ++ ds) = encoded cs ++ encoded ds :=
  List.flatMap_append

theorem length_encoded (cs : List Char) : (encoded cs).length = byteLength cs := by
  induction cs with
  | nil => rfl
  | cons c cs ih =>
      rw [encoded, List.flatMap_cons, List.length_append, String.length_utf8EncodeChar]
      exact congrArg (c.utf8Size + ·) ih

/-- Only the line end is written with the byte 10: a character of one byte is that byte, and the
bytes of any other character are larger. -/
theorem not_mem_utf8EncodeChar {c : Char} (h : c ≠ '\n') : 10 ∉ String.utf8EncodeChar c := by
  have hval : c.val.toNat ≠ 10 := fun heq => h (Char.ext (UInt32.toNat_inj.mp heq))
  have hten : (10 : UInt8).toNat = 10 := rfl
  intro hmem
  simp only [String.utf8EncodeChar] at hmem
  split_ifs at hmem <;>
    simp only [List.mem_cons, List.not_mem_nil, or_false, ← UInt8.toNat_inj, UInt8.toNat_ofNat',
      hten] at hmem <;>
    omega

/-- The line end is the byte 10, and no other character has that byte. -/
theorem count_encoded (cs : List Char) : (encoded cs).count 10 = cs.count '\n' := by
  induction cs with
  | nil => rfl
  | cons c cs ih =>
      rw [encoded, List.flatMap_cons, List.count_append, List.count_cons]
      rw [show (cs.flatMap String.utf8EncodeChar).count 10 = cs.count '\n' from ih]
      by_cases hc : c = '\n'
      · subst hc
        exact Nat.add_comm _ _
      · rw [List.count_eq_zero_of_not_mem (not_mem_utf8EncodeChar hc)]
        simp [hc]

end Text

namespace Report

namespace Place

variable {table : Array Nat} {n base size i j : Nat}

/-- The entries of the table do not fall. -/
def Ordered (table : Array Nat) : Prop := table.toList.Pairwise (· ≤ ·)

theorem Ordered.getD_le (h : Ordered table) (hle : i ≤ j) (hj : j < table.size) :
    table.getD i 0 ≤ table.getD j 0 := by
  have hi : i < table.size := by omega
  simp only [Array.getD, hi, hj, dite_true]
  rcases Nat.lt_or_eq_of_le hle with hlt | rfl
  · exact List.pairwise_iff_getElem.mp h i j hi hj hlt
  · exact Nat.le_refl _

/-- The entry at the index is the last one that is not above the number, or all are above it. -/
structure IsLast (table : Array Nat) (n i : Nat) : Prop where
  lt : i < table.size
  below : i = 0 ∨ table.getD i 0 ≤ n
  above : ∀ j, i < j → j < table.size → n < table.getD j 0

theorem IsLast.pos (h : IsLast table n i) : 0 < table.size :=
  Nat.lt_of_le_of_lt (Nat.zero_le i) h.lt

/-- A table has at most one such entry for a number. -/
theorem IsLast.unique (hi : IsLast table n i) (hj : IsLast table n j) : i = j := by
  rcases Nat.lt_trichotomy i j with hlt | heq | hlt
  · have habove := hi.above j hlt hj.lt
    have hbelow := hj.below
    omega
  · exact heq
  · have habove := hj.above i hlt hi.lt
    have hbelow := hi.below
    omega

/-- What lies before the stretch is not above the number, and what lies after it is. -/
theorem isLast_narrow (hordered : Ordered table) (hsize : 0 < size)
    (hfit : base + size ≤ table.size) (hbelow : base = 0 ∨ table.getD base 0 ≤ n)
    (habove : ∀ j, base + size ≤ j → j < table.size → n < table.getD j 0) :
    IsLast table n (narrow table n base size) := by
  fun_induction narrow table n base size with
  | case1 base size hone =>
      exact ⟨by omega, hbelow, fun j hlt hj => habove j (by omega) hj⟩
  | case2 base size hmore half next ih =>
      have hhalf : 0 < half ∧ half + half ≤ size := by omega
      by_cases hmiddle : n < table.getD (base + half) 0
      · rw [show next = base from if_pos hmiddle] at ih ⊢
        refine ih (by omega) (by omega) hbelow fun j hle hj => ?_
        exact Nat.lt_of_lt_of_le hmiddle (hordered.getD_le (by omega) hj)
      · rw [show next = base + half from if_neg hmiddle] at ih ⊢
        refine ih (by omega) (by omega) (.inr (Nat.le_of_not_lt hmiddle)) fun j hle hj => ?_
        exact habove j (by omega) hj

/-- The search finds the last entry that is not above the number, whether or not it is equal. -/
theorem isLast_find (hordered : Ordered table) (hsize : 0 < table.size) :
    IsLast table n (find table n).lastIndex := by
  have hlast : IsLast table n (narrow table n 0 table.size) :=
    isLast_narrow hordered hsize (by omega) (.inl rfl) fun j hle hj => by omega
  have hindex : (find table n).lastIndex = narrow table n 0 table.size := by
    have hbelow := hlast.below
    rw [find, if_neg (by omega)]
    dsimp only
    split
    · rfl
    · split
      · rfl
      · simp only [lastIndex]
        omega
  rw [hindex]
  exact hlast

/-- A table in two parts, where the number has passed the first and not the second. -/
theorem isLast_append {passed later : List Nat} (hpassed : ∀ entry ∈ passed, entry ≤ n)
    (hlater : ∀ entry ∈ later, n < entry) :
    IsLast (0 :: (passed ++ later)).toArray n passed.length := by
  refine ⟨by simp, ?_, fun j hlt hj => ?_⟩
  · rcases List.eq_nil_or_concat passed with rfl | ⟨earlier, entry, rfl⟩
    · exact .inl rfl
    · have hentry := hpassed entry (by simp)
      exact .inr (by simpa [Array.getD] using hentry)
  · obtain ⟨k, rfl⟩ : ∃ k, j = passed.length + 1 + k := ⟨j - (passed.length + 1), by omega⟩
    have hk : k < later.length := by simp at hj; omega
    have hentry := hlater later[k] (List.getElem_mem hk)
    have hget : (0 :: (passed ++ later)).toArray.getD (passed.length + 1 + k) 0 = later[k] := by
      simp [Array.getD, Nat.add_right_comm, hk]
    rwa [hget]

end Place

namespace Lines

open Text

variable {source : String} {front back cs : List Char} {c : Char} {offset entry : Nat}

theorem count_le_byteLength (cs : List Char) : cs.count c ≤ byteLength cs :=
  Nat.le_trans List.count_le_length (length_le_byteLength cs)

/-- A line starts after a line end, which is one byte long. -/
theorem startsAfter_cons (offset : Nat) (c : Char) (cs : List Char) :
    startsAfter offset (c :: cs) =
      (if c = '\n' then [clampOffset (offset + c.utf8Size)] else []) ++
        startsAfter (offset + c.utf8Size) cs := by
  rw [startsAfter]
  split
  · next hc =>
    subst hc
    rfl
  · rfl

@[simp] theorem text_ofSource (source : String) : (ofSource source).text = source.toList := rfl

/-- The starts of a text are those of its front and those of the rest, moved behind the front. -/
theorem startsAfter_append (offset : Nat) (front back : List Char) :
    startsAfter offset (front ++ back) =
      startsAfter offset front ++ startsAfter (offset + byteLength front) back := by
  induction front generalizing offset with
  | nil => rfl
  | cons c front ih =>
      rw [List.cons_append, startsAfter_cons, startsAfter_cons, ih, byteLength_cons,
        List.append_assoc, Nat.add_assoc]

/-- Each line end starts one line. -/
theorem length_startsAfter (offset : Nat) (cs : List Char) :
    (startsAfter offset cs).length = cs.count '\n' := by
  induction cs generalizing offset with
  | nil => rfl
  | cons c cs ih =>
      rw [startsAfter_cons, List.length_append, ih, List.count_cons, Nat.add_comm]
      by_cases hc : c = '\n' <;> simp [hc]

theorem mem_startsAfter_cons :
    entry ∈ startsAfter offset (c :: cs) ↔
      (c = '\n' ∧ entry = clampOffset (offset + c.utf8Size)) ∨
        entry ∈ startsAfter (offset + c.utf8Size) cs := by
  rw [startsAfter_cons, List.mem_append]
  by_cases hc : c = '\n' <;> simp [hc]

theorem startsAfter_bounds (h : entry ∈ startsAfter offset cs) :
    clampOffset offset ≤ entry ∧ entry ≤ clampOffset (offset + byteLength cs) := by
  induction cs generalizing offset with
  | nil => cases h
  | cons c cs ih =>
      rw [byteLength_cons, ← Nat.add_assoc]
      rcases mem_startsAfter_cons.mp h with ⟨-, rfl⟩ | h
      · exact ⟨clampOffset_mono (by omega), clampOffset_mono (by omega)⟩
      · obtain ⟨hlow, hhigh⟩ := ih h
        exact ⟨Nat.le_trans (clampOffset_mono (by omega)) hlow, hhigh⟩

/-- No line starts before the first character has passed. -/
theorem le_of_mem_startsAfter (h : entry ∈ startsAfter offset (c :: cs)) :
    clampOffset (offset + c.utf8Size) ≤ entry := by
  rcases mem_startsAfter_cons.mp h with ⟨-, rfl⟩ | h
  · exact Nat.le_refl _
  · exact (startsAfter_bounds h).1

theorem pairwise_startsAfter (offset : Nat) (cs : List Char) :
    (startsAfter offset cs).Pairwise (· ≤ ·) := by
  induction cs generalizing offset with
  | nil => exact .nil
  | cons c cs ih =>
      rw [startsAfter_cons, List.pairwise_append]
      refine ⟨by split <;> simp, ih _, fun a ha b hb => ?_⟩
      obtain ⟨-, rfl⟩ : c = '\n' ∧ a = clampOffset (offset + c.utf8Size) := by
        by_cases hc : c = '\n' <;> simp_all
      exact (startsAfter_bounds hb).1

/-- The table of starts is ordered, also where offsets are clamped. -/
theorem ordered_starts (source : String) : Place.Ordered (ofSource source).starts :=
  List.pairwise_cons.mpr ⟨fun _ _ => Nat.zero_le _, pairwise_startsAfter 0 source.toList⟩

/-- The table of a source that is cut in two. -/
theorem starts_append (htext : source.toList = front ++ back) :
    (ofSource source).starts =
      (0 :: (startsAfter 0 front ++ startsAfter (byteLength front) back)).toArray := by
  rw [ofSource, htext, startsAfter_append, Nat.zero_add]

/-- What of a text an offset has passed, and what is left. -/
structure Passed (text : List Char) (offset : Nat) (front back : List Char) : Prop where
  text : text = front ++ back
  fits : byteLength front ≤ offset
  longest : ∀ c cs, back = c :: cs → offset < byteLength front + c.utf8Size

/-- Every offset cuts a text into what lies before it and what does not. -/
theorem exists_passed (text : List Char) (offset : Nat) :
    ∃ front back, Passed text offset front back := by
  induction text generalizing offset with
  | nil => exact ⟨[], [], rfl, Nat.zero_le _, fun _ _ h => nomatch h⟩
  | cons c cs ih =>
      by_cases hc : offset < c.utf8Size
      · refine ⟨[], c :: cs, rfl, Nat.zero_le _, fun d ds h => ?_⟩
        cases h
        rwa [byteLength_nil, Nat.zero_add]
      · obtain ⟨front, back, rfl, hfits, hlongest⟩ := ih (offset - c.utf8Size)
        refine ⟨c :: front, back, rfl, by rw [byteLength_cons]; omega, fun d ds h => ?_⟩
        have hnext := hlongest d ds h
        rw [byteLength_cons]
        omega

/-- An offset between two characters, or past the end, has passed what is before it. -/
theorem passed_of_append {text : List Char} (htext : text = front ++ back)
    (hoffset : min offset (byteLength text) = byteLength front) :
    Passed text offset front back := by
  refine ⟨htext, by omega, fun c cs hback => ?_⟩
  have hpos := c.utf8Size_pos
  rw [htext, hback, byteLength_append, byteLength_cons] at hoffset
  omega

/-- An offset between two characters has the text before it. -/
theorem exists_front (h : String.Pos.Raw.IsValid source ⟨offset⟩) :
    ∃ front back, source.toList = front ++ back ∧ byteLength front = offset := by
  obtain ⟨front, back, hsource, hoffset⟩ := String.Pos.Raw.isValid_iff_exists_append.mp h
  refine ⟨front.toList, back.toList, by rw [hsource, String.toList_append], ?_⟩
  rw [byteLength_toList]
  exact (congrArg String.Pos.Raw.byteIdx hoffset).symm

theorem min_of_append (htext : source.toList = front ++ back) :
    min (byteLength front) source.utf8ByteSize = byteLength front := by
  rw [← byteLength_toList, htext, byteLength_append]
  omega

/-- Two places between characters, in order, with what is between them. -/
theorem exists_middle {start stop : Nat} (hstart : String.Pos.Raw.IsValid source ⟨start⟩)
    (hstop : String.Pos.Raw.IsValid source ⟨stop⟩) (hle : start ≤ stop) :
    ∃ front middle back, source.toList = front ++ (middle ++ back) ∧
      byteLength front = start ∧ byteLength (front ++ middle) = stop := by
  obtain ⟨front, rest, htext, rfl⟩ := exists_front hstart
  obtain ⟨longer, back, htext', rfl⟩ := exists_front hstop
  rcases List.append_eq_append_iff.mp (htext.symm.trans htext') with
    ⟨middle, rfl, rfl⟩ | ⟨extra, rfl, rfl⟩
  · exact ⟨front, middle, back, htext, rfl, rfl⟩
  · have hextra := length_le_byteLength extra
    rw [byteLength_append] at hle
    obtain rfl : extra = [] := List.eq_nil_of_length_eq_zero (by omega)
    exact ⟨longer ++ [], [], rest, htext, rfl, by simp⟩

/-- A character that an offset has begun and not passed is longer than a line end. -/
theorem Passed.count_take {text : List Char} (h : Passed text offset front back) :
    ((encoded text).take offset).count 10 = front.count '\n' := by
  have hlength := length_encoded front
  rw [h.text, encoded_append, List.take_append, List.take_of_length_le (by have := h.fits; omega),
    List.count_append, count_encoded, hlength]
  cases back with
  | nil => simp [encoded]
  | cons c cs =>
      have hnext := h.longest c cs rfl
      have hone := String.length_utf8EncodeChar c
      rw [encoded, List.flatMap_cons, List.take_append_of_le_length (by omega)]
      have hnone : ((String.utf8EncodeChar c).take (offset - byteLength front)).count 10 = 0 := by
        by_cases hc : c = '\n'
        · subst hc
          have hsize : '\n'.utf8Size = 1 := rfl
          rw [show offset - byteLength front = 0 by omega]
          rfl
        · exact List.count_eq_zero_of_not_mem fun hmem =>
            not_mem_utf8EncodeChar hc (List.mem_of_mem_take hmem)
      rw [hnone, Nat.add_zero]

theorem ordinal_of_lt {n : Nat} (h : n < maxOffset) : ordinal n = 1 + n := by
  rw [ordinal, if_pos (Nat.le_of_lt h), Nat.add_comm]

/-- The text ends with a line end, if it is not empty. -/
def Whole (text : List Char) : Prop := text = [] ∨ ∃ lines, text = lines ++ ['\n']

def lastLine (text : List Char) : List Char := text.rtakeWhile (· != '\n')

theorem not_mem_lastLine (text : List Char) : '\n' ∉ lastLine text := fun h => by
  have hends : ('\n' != '\n') = true := List.mem_rtakeWhile_imp (p := (· != '\n')) h
  contradiction

/-- A text is its whole lines and its last one. -/
theorem exists_whole (text : List Char) : ∃ lines, Whole lines ∧ text = lines ++ lastLine text := by
  refine ⟨text.rdropWhile (· != '\n'), ?_, List.rdropWhile_append_rtakeWhile.symm⟩
  rcases List.eq_nil_or_concat (text.rdropWhile (· != '\n')) with hnil | ⟨lines, c, hconcat⟩
  · exact .inl hnil
  · have hlast := List.rdropWhile_last_not (· != '\n') text (by simp [hconcat])
    obtain rfl : c = '\n' := by simpa [hconcat] using hlast
    exact .inr ⟨lines, hconcat.trans List.concat_eq_append⟩

/-- What stands behind the last line end has no line end. -/
theorem count_whole {lines : List Char} (h : front = lines ++ lastLine front) :
    front.count '\n' = lines.count '\n' := by
  rw [h, List.count_append, List.count_eq_zero_of_not_mem (not_mem_lastLine front), Nat.add_zero]

/-- A text behind whole lines that ends none of its own is the last line. -/
theorem lastLine_of_whole (hwhole : Whole front) (hback : '\n' ∉ back) :
    lastLine (front ++ back) = back := by
  have hkept : ∀ c ∈ back.reverse, (c != '\n') = true := fun c hc =>
    bne_iff_ne.mpr fun h => hback (h ▸ List.mem_reverse.mp hc)
  rw [lastLine, List.rtakeWhile, List.reverse_append, List.takeWhile_append_of_pos hkept]
  rcases hwhole with rfl | ⟨lines, rfl⟩ <;> simp

theorem lastLine_append_of_not_mem (h : '\n' ∉ back) :
    lastLine (front ++ back) = lastLine front ++ back := by
  obtain ⟨lines, hwhole, hfront⟩ := exists_whole front
  have hlast : '\n' ∉ lastLine front ++ back := fun hmem =>
    (List.mem_append.mp hmem).elim (not_mem_lastLine front) h
  calc lastLine (front ++ back) = lastLine (lines ++ (lastLine front ++ back)) := by
        rw [← List.append_assoc, ← hfront]
    _ = lastLine front ++ back := lastLine_of_whole hwhole hlast

/-- A line of a text, without its line end, with what is before it and what is after it. -/
structure IsLine (text front piece back : List Char) : Prop where
  text : text = front ++ (piece ++ back)
  whole : Whole front
  plain : '\n' ∉ piece
  closed : back = [] ∨ ∃ later, back = '\n' :: later

/-- The pieces between the line ends are the lines. -/
theorem exists_line {text piece : List Char} {k : Nat}
    (h : (text.splitOn '\n')[k]? = some piece) :
    ∃ front back, IsLine text front piece back ∧ front.count '\n' = k := by
  by_cases hends : '\n' ∈ text
  · obtain ⟨first, later, rfl, hfirst⟩ := List.eq_append_cons_of_mem hends
    rw [List.splitOn_append_cons_self_of_not_mem hfirst] at h
    cases k with
    | zero =>
        obtain rfl : first = piece := by simpa using h
        exact ⟨[], '\n' :: later, ⟨rfl, .inl rfl, hfirst, .inr ⟨later, rfl⟩⟩, rfl⟩
    | succ k =>
        obtain ⟨front, back, ⟨rfl, hwhole, hplain, hclosed⟩, rfl⟩ := exists_line h
        refine ⟨first ++ '\n' :: front, back, ⟨by simp, ?_, hplain, hclosed⟩, ?_⟩
        · rcases hwhole with rfl | ⟨lines, rfl⟩
          · exact .inr ⟨first, rfl⟩
          · exact .inr ⟨first ++ '\n' :: lines, by simp⟩
        · rw [List.count_append, List.count_eq_zero_of_not_mem hfirst, List.count_cons_self,
            Nat.zero_add]
  · rw [List.splitOn_eq_singleton hends] at h
    obtain ⟨rfl, rfl⟩ : k = 0 ∧ text = piece := by
      cases k with
      | zero => exact ⟨rfl, by simpa using h⟩
      | succ k => simp at h
    exact ⟨[], [], ⟨by simp, .inl rfl, hends, .inl rfl⟩, rfl⟩
termination_by k

/-- There is one piece more than there are line ends. -/
theorem length_splitOn (text : List Char) :
    (text.splitOn '\n').length = 1 + text.count '\n' := by
  induction text with
  | nil => rfl
  | cons c cs ih =>
      rw [List.splitOn_cons_eq_if_modifyHead, List.count_cons]
      split
      · rw [List.length_cons, ih, Nat.add_assoc]
      · rw [List.length_modifyHead, ih, Nat.add_zero]

/-- There is an entry for the first line, and one for each line end. -/
theorem size_starts (source : String) :
    (ofSource source).starts.size = 1 + source.toList.count '\n' := by
  rw [ofSource, List.size_toArray, List.length_cons, length_startsAfter, Nat.add_comm]

theorem trimmed_append_lineEnd (piece : List Char) : trimmed (piece ++ ['\n']) = trimmed piece :=
  List.rdropWhile_concat_pos isLineEnd piece '\n' rfl

/-- Only carriage returns are cut off a line without its line end. -/
theorem trimmed_of_plain {piece : List Char} (h : '\n' ∉ piece) :
    trimmed piece = piece.rdropWhile (· == '\r') := by
  change piece.rdropWhile isLineEnd = _
  induction piece using List.reverseRecOn with
  | nil => rfl
  | append_singleton piece c ih =>
      simp only [List.mem_append, List.mem_singleton, not_or] at h
      have hend : isLineEnd c = (c == '\r') := by
        rw [isLineEnd, beq_eq_false_iff_ne.mpr (Ne.symm h.2), Bool.false_or]
      rw [List.rdropWhile_concat, List.rdropWhile_concat, hend, ih h.1]

section Short

variable (hsize : source.utf8ByteSize < maxOffset)

include hsize

theorem length_lt_of_append (htext : source.toList = front ++ back) :
    byteLength front + byteLength back < maxOffset := by
  rwa [← byteLength_append, ← htext, byteLength_toList]

/-- The line of an offset is told by the line ends that it has passed. -/
theorem lineAt_of_passed (h : Passed source.toList offset front back) :
    (ofSource source).lineAt offset = 1 + front.count '\n' := by
  have hlength := length_lt_of_append hsize h.text
  have hlast : Place.IsLast (ofSource source).starts offset (front.count '\n') := by
    rw [starts_append h.text, ← length_startsAfter 0 front]
    refine Place.isLast_append (fun entry hentry => ?_) fun entry hentry => ?_
    · have hhigh := (startsAfter_bounds hentry).2
      rw [Nat.zero_add, clampOffset_of_le (by omega)] at hhigh
      exact Nat.le_trans hhigh h.fits
    · cases back with
      | nil => cases hentry
      | cons c cs =>
          have hlow := le_of_mem_startsAfter hentry
          rw [byteLength_cons] at hlength
          rw [clampOffset_of_le (by omega)] at hlow
          exact Nat.lt_of_lt_of_le (h.longest c cs rfl) hlow
  have hfind := Place.isLast_find (n := offset) (ordered_starts source) hlast.pos
  rw [lineAt, hfind.unique hlast, ordinal_of_lt]
  exact Nat.lt_of_le_of_lt (count_le_byteLength front) (by omega)

/-- The entry of a line that starts after the whole lines in front. -/
theorem starts_getElem? (htext : source.toList = front ++ back) (hwhole : Whole front) :
    (ofSource source).starts[front.count '\n']? = some (byteLength front) := by
  have hlength := length_lt_of_append hsize htext
  rw [starts_append htext, List.getElem?_toArray]
  rcases hwhole with rfl | ⟨lines, rfl⟩
  · rfl
  · rw [startsAfter_append, startsAfter_cons, if_pos rfl, List.count_append,
      ← length_startsAfter 0 lines]
    rw [byteLength_append, byteLength_cons, byteLength_nil, Nat.add_zero] at hlength ⊢
    have hclamp := clampOffset_of_le (n := byteLength lines + '\n'.utf8Size) (by omega)
    simp [startsAfter, hclamp]

/-- The line behind whole lines starts where they end. -/
theorem lineStart_of_whole (htext : source.toList = front ++ back) (hwhole : Whole front) :
    (ofSource source).lineStart (1 + front.count '\n') = byteLength front := by
  rw [lineStart, Nat.add_sub_cancel_left, starts_getElem? hsize htext hwhole]
  rfl

/-- A position is told by the line ends before it, and by the characters since the last of them. -/
theorem position_eq (htext : source.toList = front ++ back)
    (hoffset : min offset source.utf8ByteSize = byteLength front) :
    (ofSource source).position offset =
      (1 + front.count '\n', 1 + (lastLine front).length) := by
  have hlength := length_lt_of_append hsize htext
  have hcolumn := length_le_byteLength (lastLine front)
  rw [← byteLength_toList] at hoffset
  have hline := lineAt_of_passed hsize (passed_of_append htext hoffset)
  obtain ⟨lines, hwhole, hfront⟩ := exists_whole front
  have hcount := count_whole hfront
  have hbytes : byteLength front = byteLength lines + byteLength (lastLine front) := by
    rw [← byteLength_append, ← hfront]
  have hwhere : source.toList = lines ++ (lastLine front ++ back) := by
    rw [← List.append_assoc, ← hfront, htext]
  have hstart := lineStart_of_whole hsize hwhere hwhole
  have hslice := slice?_append lines (lastLine front) back
  rw [← hcount, ← hline] at hstart
  rw [← hwhere, ← hbytes, ← hoffset] at hslice
  simp only [position, hstart]
  rw [text_ofSource, hslice, hline, Option.getD_some, ordinal_of_lt (by omega)]

/-- The line of an offset is one more than the line ends before it. -/
theorem lineAt_eq (htext : source.toList = front ++ back)
    (hoffset : min offset source.utf8ByteSize = byteLength front) :
    (ofSource source).lineAt offset = 1 + front.count '\n' :=
  congrArg Prod.fst (position_eq hsize htext hoffset)

/-- A later place in the source has a later line, or a later column of the same line. -/
theorem position_lt {middle : List Char} {offset' : Nat}
    (htext : source.toList = front ++ (middle ++ back)) (hmiddle : middle ≠ [])
    (hoffset : min offset source.utf8ByteSize = byteLength front)
    (hoffset' : min offset' source.utf8ByteSize = byteLength (front ++ middle)) :
    Prod.Lex (· < ·) (· < ·) ((ofSource source).position offset)
      ((ofSource source).position offset') := by
  rw [position_eq hsize htext hoffset,
    position_eq hsize (htext.trans (List.append_assoc _ _ _).symm) hoffset', List.count_append]
  by_cases hends : '\n' ∈ middle
  · have hmore : 0 < middle.count '\n' := List.count_pos_iff.mpr hends
    exact .left _ _ (by omega)
  · have hmore : 0 < middle.length := List.length_pos_iff.mpr hmiddle
    rw [lastLine_append_of_not_mem hends, List.length_append,
      List.count_eq_zero_of_not_mem hends, Nat.add_zero]
    exact .right _ (by omega)

/-- A line shows what stands between its line ends. -/
theorem lineText?_of_line {piece : List Char} (h : IsLine source.toList front piece back) :
    (ofSource source).lineText? (1 + front.count '\n') =
      some (piece.rdropWhile (· == '\r')) := by
  have hstart := lineStart_of_whole hsize h.text h.whole
  have hcount : source.toList.count '\n' = front.count '\n' + back.count '\n' := by
    rw [h.text, List.count_append, List.count_append, List.count_eq_zero_of_not_mem h.plain,
      Nat.zero_add]
  rw [lineText?, if_neg (by rw [size_starts]; omega), hstart]
  rcases h.closed with rfl | ⟨later, rfl⟩
  · have hstop : (ofSource source).starts[1 + front.count '\n']? = none := by
      rw [Array.getElem?_eq_none_iff, size_starts, hcount, List.count_nil]
      omega
    have hslice := slice?_append front piece []
    rw [← h.text] at hslice
    have hbytes : byteLength source.toList = byteLength front + byteLength piece := by
      rw [h.text, byteLength_append, List.append_nil]
    simp only [hstop, Option.getD_none, text_ofSource, hbytes, hslice, Option.map_some]
    rw [trimmed_of_plain h.plain]
  · have hnext : source.toList = front ++ (piece ++ ['\n'] ++ later) := by simpa using h.text
    have hwhole : Whole (front ++ (piece ++ ['\n'])) := .inr ⟨front ++ piece, by simp⟩
    have hentry := starts_getElem? hsize (hnext.trans (List.append_assoc _ _ _).symm) hwhole
    have hlines : (front ++ (piece ++ ['\n'])).count '\n' = 1 + front.count '\n' := by
      simp [List.count_eq_zero_of_not_mem h.plain, Nat.add_comm]
    have hslice := slice?_append front (piece ++ ['\n']) later
    rw [← hnext] at hslice
    rw [hlines, byteLength_append] at hentry
    simp only [hentry, Option.getD_some, text_ofSource, hslice, Option.map_some]
    rw [trimmed_append_lineEnd, trimmed_of_plain h.plain]

/-- The text of a line is the piece between two line ends, without the carriage returns at its
end. -/
theorem lineText?_eq {line : Nat} (hline : 0 < line) :
    (ofSource source).lineText? line =
      (source.toList.splitOn '\n')[line - 1]?.map (·.rdropWhile (· == '\r')) := by
  cases hpiece : (source.toList.splitOn '\n')[line - 1]? with
  | none =>
      have hcount := length_splitOn source.toList
      have hpieces := List.getElem?_eq_none_iff.mp hpiece
      rw [lineText?, if_pos (.inr (by rw [size_starts]; omega))]
      rfl
  | some piece =>
      obtain ⟨front, back, hshown, hcount⟩ := exists_line hpiece
      have htext := lineText?_of_line hsize hshown
      rwa [hcount, show 1 + (line - 1) = line by omega] at htext

end Short

/-- What the table tells of a source is what a scan of the source tells. Offsets past the end are
offsets of the end, and each part of the source is measured in characters. -/
structure Scans (source : String) (ls : Lines) : Prop where
  line : ∀ offset, ls.lineAt offset =
    1 + (source.toUTF8.data.toList.take (min offset source.utf8ByteSize)).count 10
  position : ∀ offset front back, source.toList = front ++ back →
    min offset source.utf8ByteSize = byteLength front →
    ls.position offset = (ls.lineAt offset, 1 + (lastLine front).length)
  increasing : ∀ a b, String.Pos.Raw.IsValid source ⟨a⟩ → String.Pos.Raw.IsValid source ⟨b⟩ →
    a < b → Prod.Lex (· < ·) (· < ·) (ls.position a) (ls.position b)
  text : ∀ line, 0 < line → ls.lineText? line =
    (source.toList.splitOn '\n')[line - 1]?.map (·.rdropWhile (· == '\r'))
  noText : ∀ line, ls.lineText? line = none ↔
    line = 0 ∨ (source.toList.splitOn '\n').length < line

/-- In a source that is short enough, the table of lines tells what a plain scan of the source
tells: the line and the column of every offset, in the order of the offsets, and the text of every
line there is. -/
theorem scans_ofSource (hsize : source.utf8ByteSize < maxOffset) :
    Scans source (ofSource source) where
  line offset := by
    obtain ⟨front, back, hpassed⟩ := exists_passed source.toList offset
    have hlength : source.toUTF8.data.toList.length = source.utf8ByteSize := by
      rw [← encoded_toList, length_encoded, byteLength_toList]
    rw [← hlength, ← List.take_eq_take_min, ← encoded_toList, lineAt_of_passed hsize hpassed,
      hpassed.count_take]
  position offset front back htext hoffset := by
    rw [position_eq hsize htext hoffset, lineAt_eq hsize htext hoffset]
  increasing a b ha hb hlt := by
    obtain ⟨front, middle, back, htext, rfl, rfl⟩ := exists_middle ha hb (Nat.le_of_lt hlt)
    have hmiddle : middle ≠ [] := fun hnil => by
      rw [hnil, List.append_nil] at hlt
      omega
    exact position_lt hsize htext hmiddle (min_of_append htext)
      (min_of_append (htext.trans (List.append_assoc _ _ _).symm))
  text line hline := lineText?_eq hsize hline
  noText line := by
    rcases Nat.eq_zero_or_pos line with rfl | hline
    · exact ⟨fun _ => .inl rfl, fun _ => if_pos (.inl rfl)⟩
    · rw [lineText?_eq hsize hline, Option.map_eq_none_iff, List.getElem?_eq_none_iff]
      omega

/-- Two lines with a carriage return before their line ends, where a character of the first takes
two bytes. -/
private def returning : String := "é\r\nab\r\r\n"

theorem scans_ofSource_returning :
    returning.utf8ByteSize < maxOffset ∧ Scans returning (ofSource returning) ∧
      (ofSource returning).position 5 = (2, 2) ∧ (ofSource returning).lineAt 100 = 3 ∧
      (ofSource returning).lineText? 2 = some ['a', 'b'] ∧
      (ofSource returning).lineText? 3 = some [] ∧ (ofSource returning).lineText? 4 = none := by
  have hsize : returning.utf8ByteSize < maxOffset := by decide +kernel
  have hscans := scans_ofSource hsize
  refine ⟨hsize, hscans, ?_, ?_, ?_, ?_, ?_⟩
  · decide +kernel
  · rw [hscans.line]
    decide +kernel
  · rw [hscans.text 2 (by omega)]
    decide +kernel
  · rw [hscans.text 3 (by omega)]
    decide +kernel
  · rw [hscans.noText]
    decide +kernel

end Lines

end Report

end Clausal
