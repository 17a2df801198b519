import Clausal.Proofs.Report.Underlines

/-!
The numbers of a snippet in 32 bits. Counts that are no numbers of 32 bits are replaced before one
is added to them, so a sum leaves 32 bits for the largest number alone: when an end of the span is
the largest offset, and the source has that many line ends, or its first line has that many
characters before the offset. For every other span, in order or not, within the source or not, all
sums and differences are in range, lines and columns count from one, and there is a caret.
-/

namespace Clausal

namespace Text

variable {cs ds : List Char} {n start stop : Nat}

theorem exists_of_dropBytes? (h : dropBytes? n cs = some ds) :
    ∃ pre, cs = pre ++ ds ∧ byteLength pre = n := by
  fun_induction dropBytes? n cs with
  | case1 cs =>
      cases h
      exact ⟨[], rfl, rfl⟩
  | case2 => cases h
  | case3 n c cs hfits ih =>
      obtain ⟨pre, rfl, hpre⟩ := ih h
      refine ⟨c :: pre, rfl, ?_⟩
      rw [byteLength_cons, hpre]
      omega
  | case4 => cases h

theorem exists_of_takeBytes? (h : takeBytes? n cs = some ds) :
    ∃ rest, cs = ds ++ rest ∧ byteLength ds = n := by
  fun_induction takeBytes? n cs generalizing ds with
  | case1 cs =>
      cases h
      exact ⟨cs, rfl, rfl⟩
  | case2 => cases h
  | case3 n c cs hfits ih =>
      obtain ⟨taken, htaken, rfl⟩ := Option.map_eq_some_iff.mp h
      obtain ⟨rest, rfl, hlength⟩ := ih htaken
      refine ⟨rest, rfl, ?_⟩
      rw [byteLength_cons, hlength]
      omega
  | case4 => cases h

/-- A slice is a part of the text. -/
theorem exists_of_slice? (h : slice? cs start stop = some ds) :
    ∃ pre rest, cs = pre ++ (ds ++ rest) ∧ byteLength pre = start ∧
      start + byteLength ds = stop := by
  unfold slice? at h
  split at h
  · next hle =>
      obtain ⟨tail, htail, htaken⟩ := Option.bind_eq_some_iff.mp h
      obtain ⟨pre, rfl, hpre⟩ := exists_of_dropBytes? htail
      obtain ⟨rest, rfl, hlength⟩ := exists_of_takeBytes? htaken
      exact ⟨pre, rest, rfl, hpre, by omega⟩
  · cases h

/-- A text has as many characters as bytes if each of them is one byte long. -/
theorem length_eq_byteLength_iff :
    cs.length = byteLength cs ↔ ∀ c ∈ cs, c.utf8Size = 1 := by
  induction cs with
  | nil => simp
  | cons c cs ih =>
      have hpos := c.utf8Size_pos
      have hle := length_le_byteLength cs
      rw [List.forall_mem_cons, ← ih, List.length_cons, byteLength_cons]
      omega

end Text

namespace Report

open Text

def sum? (m n : Nat) : Option Nat := if m + n ≤ maxOffset then some (m + n) else none

def difference? (m n : Nat) : Option Nat := if n ≤ m then some (m - n) else none

namespace Lines

variable {source : String} {offset index : Nat}

def ordinal? (n : Nat) : Option Nat := sum? (if n ≤ maxOffset then n else maxOffset - 1) 1

/-- The line of an offset, where sums have to stay in range. -/
def lineAt? (ls : Lines) (offset : Nat) : Option Nat :=
  ordinal? (Place.find ls.starts offset).lastIndex

/-- The line and the column of an offset, where sums have to stay in range. -/
def position? (ls : Lines) (offset : Nat) : Option (Nat × Nat) := do
  let line ← ls.lineAt? offset
  let before := slice? ls.text (ls.lineStart line) (min offset (byteLength ls.text))
  let column ← ordinal? (before.getD []).length
  return (line, column)

/-- The largest offset, where the index of its line is as large, or else the number of characters in
front of it on the only line. -/
inductive Overflows (source : String) : Nat → Prop
  | line (ends : source.toList.count '\n' = maxOffset) : Overflows source maxOffset
  | column {front back : List Char} (text : source.toList = front ++ back)
      (length : front.length = maxOffset) (narrow : ∀ c ∈ front, c.utf8Size = 1)
      (plain : '\n' ∉ source.toList) : Overflows source maxOffset

theorem Overflows.eq_maxOffset (h : Overflows source offset) : offset = maxOffset := by
  cases h <;> rfl

theorem ordinal?_maxOffset : ordinal? maxOffset = none := by
  rw [ordinal?, if_pos (Nat.le_refl _), sum?, if_neg (by omega)]

theorem ordinal_bounds {n : Nat} (h : n ≠ maxOffset) : 1 ≤ ordinal n ∧ ordinal n ≤ maxOffset := by
  have hmax : 0 < maxOffset := by decide
  unfold ordinal
  split <;> omega

theorem ordinal?_of_ne {n : Nat} (h : n ≠ maxOffset) : ordinal? n = some (ordinal n) :=
  if_pos (ordinal_bounds h).2

/-- Before a line that has an index there are as many line ends, each of one byte. -/
theorem le_startsAfter {cs : List Char} {entry : Nat}
    (h : (startsAfter offset cs)[index]? = some entry) :
    clampOffset (offset + index + 1) ≤ entry := by
  induction cs generalizing offset index with
  | nil => cases h
  | cons c cs ih =>
      have hpos := c.utf8Size_pos
      rw [startsAfter_cons] at h
      split at h
      · cases index with
        | zero =>
            obtain rfl := Option.some.inj h
            exact clampOffset_mono (by omega)
        | succ index =>
            have hlater : (startsAfter (offset + c.utf8Size) cs)[index]? = some entry := h
            exact Nat.le_trans (clampOffset_mono (by omega)) (ih hlater)
      · exact Nat.le_trans (clampOffset_mono (by omega)) (ih h)

theorem le_starts (hindex : index < (ofSource source).starts.size) :
    clampOffset index ≤ (ofSource source).starts.getD index 0 := by
  cases index with
  | zero => exact Nat.zero_le _
  | succ index =>
      rw [size_starts] at hindex
      have hlt : index < (startsAfter 0 source.toList).length := by
        rw [length_startsAfter]
        omega
      have hentry := le_startsAfter (List.getElem?_eq_getElem hlt)
      rw [Nat.zero_add] at hentry
      simpa [ofSource, Array.getD, hlt] using hentry

theorem starts_le (index : Nat) : (ofSource source).starts.getD index 0 ≤ maxOffset := by
  rw [Array.getD_eq_getD_getElem?]
  cases hentry : (ofSource source).starts[index]? with
  | none => exact Nat.zero_le _
  | some entry =>
      rcases List.mem_cons.mp (List.mem_toArray.mp (Array.mem_of_getElem? hentry)) with
        rfl | hlater
      · exact Nat.zero_le _
      · exact Nat.le_trans (startsAfter_bounds hlater).2 (clampOffset_le _)

theorem isLast_lastIndex (source : String) (offset : Nat) :
    Place.IsLast (ofSource source).starts offset
      (Place.find (ofSource source).starts offset).lastIndex :=
  Place.isLast_find (ordered_starts source) (by rw [size_starts]; omega)

/-- Every line starts at the largest offset at the latest. -/
theorem lastIndex_maxOffset (source : String) :
    (Place.find (ofSource source).starts maxOffset).lastIndex = source.toList.count '\n' := by
  have hlast := isLast_lastIndex source maxOffset
  have hlt := hlast.lt
  rw [size_starts] at hlt
  by_contra hne
  have hlater := hlast.above (source.toList.count '\n') (by omega) (by rw [size_starts]; omega)
  have hle := @starts_le source (source.toList.count '\n')
  omega

theorem lastIndex_ne (h : offset < maxOffset) :
    (Place.find (ofSource source).starts offset).lastIndex ≠ maxOffset := by
  intro heq
  have hlast := isLast_lastIndex source offset
  have hstart := le_starts hlast.lt
  have hbelow := hlast.below
  rw [heq, clampOffset_of_le (Nat.le_refl _)] at hstart
  rw [heq] at hbelow
  omega

def before (ls : Lines) (offset : Nat) : List Char :=
  (slice? ls.text (ls.lineStart (ls.lineAt offset)) (min offset (byteLength ls.text))).getD []

theorem position_before (ls : Lines) (offset : Nat) :
    ls.position offset = (ls.lineAt offset, ordinal (ls.before offset).length) := rfl

theorem length_before_le (ls : Lines) (offset : Nat) :
    (ls.before offset).length ≤ offset - ls.lineStart (ls.lineAt offset) := by
  unfold before
  cases hslice : slice? ls.text (ls.lineStart (ls.lineAt offset))
      (min offset (byteLength ls.text)) with
  | none => exact Nat.zero_le _
  | some part =>
      obtain ⟨pre, rest, -, -, hstop⟩ := exists_of_slice? hslice
      have hlength := length_le_byteLength part
      simp only [Option.getD_some]
      omega

/-- Lines after the first one start after a line end. -/
theorem lineStart_pos (hpos : 0 < (Place.find (ofSource source).starts offset).lastIndex) :
    0 < (ofSource source).lineStart ((ofSource source).lineAt offset) := by
  have hmax : 1 < maxOffset := by decide
  have hlt := (isLast_lastIndex source offset).lt
  generalize hindex : (Place.find (ofSource source).starts offset).lastIndex = index at *
  rw [lineAt, hindex, lineStart, ordinal, Nat.add_sub_cancel]
  -- The index of the line that is told, where a large one has been replaced.
  generalize htold : (if index ≤ maxOffset then index else maxOffset - 1) = told
  have hbounds : 0 < told ∧ told ≤ index := by
    split at htold <;> omega
  have hsize : told < (ofSource source).starts.size := by omega
  have hstart := le_starts hsize
  have hclamp : clampOffset 1 ≤ clampOffset told := clampOffset_mono hbounds.1
  rw [clampOffset_of_le (by omega : 1 ≤ maxOffset)] at hclamp
  rw [Array.getD_eq_getD_getElem?] at hstart
  omega

/-- Elsewhere neither of the two counts is the largest number of 32 bits. -/
theorem counts_ne (hoffset : offset ≤ maxOffset) (h : ¬ Overflows source offset) :
    (Place.find (ofSource source).starts offset).lastIndex ≠ maxOffset ∧
      ((ofSource source).before offset).length ≠ maxOffset := by
  have hlength := length_before_le (ofSource source) offset
  rcases Nat.lt_or_eq_of_le hoffset with hlt | rfl
  · exact ⟨lastIndex_ne hlt, by omega⟩
  · have hcount : source.toList.count '\n' ≠ maxOffset := fun hends => h (.line hends)
    have hindex := lastIndex_maxOffset source
    refine ⟨hindex ▸ hcount, fun hbefore => ?_⟩
    -- So many characters leave no room for a line before this one, and none for longer ones.
    have hplain : '\n' ∉ source.toList := by
      intro hmem
      have hstart := lineStart_pos (hindex ▸ List.count_pos_iff.mpr hmem)
      have hmax : 0 < maxOffset := by decide
      omega
    cases hslice : slice? (ofSource source).text
        ((ofSource source).lineStart ((ofSource source).lineAt maxOffset))
        (min maxOffset (byteLength (ofSource source).text)) with
    | none =>
        rw [before, hslice] at hbefore
        exact absurd hbefore (by decide)
    | some part =>
        obtain ⟨pre, rest, htext, hpre, hstop⟩ := exists_of_slice? hslice
        rw [before, hslice, Option.getD_some] at hbefore
        have hle := length_le_byteLength part
        have hnone := length_le_byteLength pre
        obtain rfl : pre = [] := List.eq_nil_of_length_eq_zero (by omega)
        have hfront : source.toList = part ++ rest := htext
        exact h (.column hfront hbefore (length_eq_byteLength_iff.mp (by omega)) hplain)

theorem position?_of_not_overflows (hoffset : offset ≤ maxOffset)
    (h : ¬ Overflows source offset) :
    (ofSource source).position? offset = some ((ofSource source).position offset) := by
  obtain ⟨hline, hcolumn⟩ := counts_ne hoffset h
  have hlineAt : (ofSource source).lineAt? offset = some ((ofSource source).lineAt offset) :=
    ordinal?_of_ne hline
  rw [position?, hlineAt, Option.bind_eq_bind, Option.bind_some, position_before]
  change (ordinal? ((ofSource source).before offset).length >>= _) = _
  rw [ordinal?_of_ne hcolumn]
  rfl

theorem position?_of_overflows (h : Overflows source offset) :
    (ofSource source).position? offset = none := by
  have hindex := lastIndex_maxOffset source
  cases h with
  | line hends =>
      rw [position?, lineAt?, hindex, hends, ordinal?_maxOffset]
      rfl
  | @column front back htext hlength hnarrow hplain =>
      have hbytes := length_eq_byteLength_iff.mpr hnarrow
      rw [List.count_eq_zero_of_not_mem hplain] at hindex
      have hlineAt : (ofSource source).lineAt? maxOffset = some 1 := by
        rw [lineAt?, hindex]
        rfl
      have hslice : slice? (ofSource source).text ((ofSource source).lineStart 1)
          (min maxOffset (byteLength (ofSource source).text)) = some front := by
        have hfront := slice?_append [] front back
        have hstop : min maxOffset (byteLength source.toList) = byteLength front := by
          rw [htext, byteLength_append]
          omega
        rw [text_ofSource, hstop, htext]
        simpa [lineStart, ofSource] using hfront
      simp only [position?, hlineAt, Option.bind_eq_bind, Option.bind_some, hslice,
        Option.getD_some, hlength, ordinal?_maxOffset, Option.bind_none]

theorem position_bounds (hoffset : offset ≤ maxOffset) (h : ¬ Overflows source offset) :
    (1 ≤ ((ofSource source).position offset).1 ∧
        ((ofSource source).position offset).1 ≤ maxOffset) ∧
      1 ≤ ((ofSource source).position offset).2 ∧
        ((ofSource source).position offset).2 ≤ maxOffset := by
  obtain ⟨hline, hcolumn⟩ := counts_ne hoffset h
  exact ⟨ordinal_bounds hline, ordinal_bounds hcolumn⟩

/-- A line is a part of the source. -/
theorem length_lineText_le (source : String) (line : Nat) :
    (((ofSource source).lineText? line).getD []).length ≤ source.toList.length := by
  unfold lineText?
  split
  · exact Nat.zero_le _
  · generalize (ofSource source).starts[line]?.getD (byteLength (ofSource source).text) = stop
    cases hslice : slice? (ofSource source).text ((ofSource source).lineStart line) stop with
    | none =>
        simp only [hslice]
        exact Nat.zero_le _
    | some part =>
        obtain ⟨pre, rest, htext, -, -⟩ := exists_of_slice? hslice
        have htrimmed : (trimmed part).length ≤ part.length :=
          (List.rdropWhile_prefix (l := part) isLineEnd).length_le
        rw [text_ofSource] at htext
        simp only [hslice, Option.map_some, Option.getD_some, htext, List.length_append]
        omega

end Lines

namespace Renderer

open Lines

structure Layout where
  line : Nat
  column : Nat
  indent : Nat
  carets : Nat

/-- The carets under the first line of a span, where differences have to stay in range. -/
def carets? (lines : Lines) (span : Span) (line column : Nat) (shown : List Char) :
    Option Nat := do
  let (_, stopColumn) ← lines.position? span.stop
  let stopLine ← lines.lineAt? span.stop
  if stopLine = line then
    if column < stopColumn then difference? stopColumn column else some 1
  else some (max (shown.length + 1 - column) 1)

/-- The layout of a span, where all sums and differences have to stay in range. -/
def layout? (lines : Lines) (span : Span) : Option Layout := do
  let (line, column) ← lines.position? span.start
  let carets ← carets? lines span line column ((lines.lineText? line).getD [])
  let indent ← difference? column 1
  return ⟨line, column, indent, carets⟩

variable {source : String} {span : Span}

/-- The numbers of a layout are numbers of 32 bits from one on, no difference is cut off, the text
is shorter than the source, and the snippet is laid out by them. -/
structure Layout.Shows (source : String) (span : Span) (l : Layout) : Prop where
  line : 1 ≤ l.line ∧ l.line ≤ maxOffset
  column : 1 ≤ l.column ∧ l.column ≤ maxOffset
  indent : l.indent + 1 = l.column
  carets : 1 ≤ l.carets
  text : (((ofSource source).lineText? l.line).getD []).length ≤ source.utf8ByteSize
  snippet : ∀ path colored message, snippet colored ⟨path, ofSource source⟩ ⟨span, message⟩ =
    rows path colored l.line (((ofSource source).lineText? l.line).getD []) l.indent l.carets
      message

theorem layout?_of_overflows
    (h : Overflows source span.start ∨ Overflows source span.stop) :
    layout? (ofSource source) span = none := by
  rcases h with hstart | hstop
  · rw [layout?, position?_of_overflows hstart]
    rfl
  · unfold layout?
    cases (ofSource source).position? span.start with
    | none => rfl
    | some place => simp [carets?, position?_of_overflows hstop]

/-- The one difference of two columns is taken where it is positive. -/
theorem carets?_of_not_overflows (hstop : span.stop ≤ maxOffset)
    (hlast : ¬ Overflows source span.stop) (column : Nat) (shown : List Char) :
    carets? (ofSource source) span ((ofSource source).lineAt span.start) column shown =
      some (underline (ofSource source) span column shown) := by
  have hlineAt : (ofSource source).lineAt? span.stop = some ((ofSource source).lineAt span.stop) :=
    ordinal?_of_ne (counts_ne hstop hlast).1
  simp only [carets?, position?_of_not_overflows hstop hlast, hlineAt, position_before, underline,
    Option.bind_eq_bind, Option.bind_some]
  by_cases hline : (ofSource source).lineAt span.stop = (ofSource source).lineAt span.start
  · by_cases hcolumn : column < ordinal ((ofSource source).before span.stop).length
    · simp [hline, hcolumn, difference?, Nat.le_of_lt hcolumn]
    · simp [hline, hcolumn]
  · simp [hline]

theorem underline_pos (lines : Lines) (span : Span) (column : Nat) (shown : List Char) :
    1 ≤ underline lines span column shown := by
  simp only [underline]
  split_ifs <;> omega

theorem layout?_of_not_overflows (hstart : span.start ≤ maxOffset) (hstop : span.stop ≤ maxOffset)
    (hfirst : ¬ Overflows source span.start) (hlast : ¬ Overflows source span.stop) :
    ∃ l, layout? (ofSource source) span = some l ∧ l.Shows source span := by
  obtain ⟨hline, hcolumn⟩ := position_bounds hstart hfirst
  have hplace := position?_of_not_overflows hstart hfirst
  have hfirstLine : ((ofSource source).position span.start).1 =
      (ofSource source).lineAt span.start := rfl
  generalize hposition : (ofSource source).position span.start = place at *
  obtain ⟨line, column⟩ := place
  obtain rfl : line = (ofSource source).lineAt span.start := hfirstLine
  have hindent : difference? column 1 = some (column - 1) := if_pos hcolumn.1
  have hlength := length_lineText_le source ((ofSource source).lineAt span.start)
  have hbytes := length_le_byteLength source.toList
  rw [byteLength_toList] at hbytes
  refine ⟨⟨_, column, column - 1, underline (ofSource source) span column
    (((ofSource source).lineText? ((ofSource source).lineAt span.start)).getD [])⟩, ?_, hline,
    hcolumn, Nat.sub_add_cancel hcolumn.1, underline_pos _ _ _ _, Nat.le_trans hlength hbytes,
    fun path colored message => ?_⟩
  · simp only [layout?, hplace, carets?_of_not_overflows hstop hlast, hindent,
      Option.bind_eq_bind, Option.bind_some]
    rfl
  · have hcolumnOne : 1 + (column - 1) = column := Nat.add_sub_cancel' hcolumn.1
    simp only [snippet, hposition, rows, location, hcolumnOne]
    rfl

/-- A snippet's numbers leave 32 bits at the largest offset alone, where the source is that long,
and stay in range everywhere else. -/
theorem layout?_cases (hstart : span.start ≤ maxOffset) (hstop : span.stop ≤ maxOffset) :
    ((Overflows source span.start ∨ Overflows source span.stop) ∧
        layout? (ofSource source) span = none) ∨
      (¬ (Overflows source span.start ∨ Overflows source span.stop) ∧
        ∃ l, layout? (ofSource source) span = some l ∧ l.Shows source span) := by
  by_cases h : Overflows source span.start ∨ Overflows source span.stop
  · exact .inl ⟨h, layout?_of_overflows h⟩
  · obtain ⟨hfirst, hlast⟩ := not_or.mp h
    exact .inr ⟨h, layout?_of_not_overflows hstart hstop hfirst hlast⟩

/-- One line, as long as the largest offset. -/
private def longest : String := String.ofList (List.replicate maxOffset 'a')

/-- The end of such a source is out of range, and places past the end of a short one are not. -/
theorem layout?_cases_longest :
    layout? (ofSource longest) ⟨0, maxOffset⟩ = none ∧
      ∃ l, layout? (ofSource "ab\n") ⟨9, 1⟩ = some l ∧ l.Shows "ab\n" ⟨9, 1⟩ := by
  constructor
  · have htext : longest.toList = List.replicate maxOffset 'a' ++ [] := by
      rw [longest, String.toList_ofList, List.append_nil]
    have hends : Overflows longest maxOffset := by
      refine .column htext List.length_replicate (fun c hc => ?_) fun hmem => ?_
      · rw [List.eq_of_mem_replicate hc]
        rfl
      · rw [htext, List.append_nil] at hmem
        exact absurd (List.eq_of_mem_replicate hmem) (by decide)
    rcases @layout?_cases longest ⟨0, maxOffset⟩ (Nat.zero_le _) (Nat.le_refl _) with h | h
    · exact h.2
    · exact absurd (.inr hends) h.1
  · have hplaces : ¬ (Overflows "ab\n" 9 ∨ Overflows "ab\n" 1) := by
      rintro (h | h)
      · exact absurd h.eq_maxOffset (by decide)
      · exact absurd h.eq_maxOffset (by decide)
    rcases @layout?_cases "ab\n" ⟨9, 1⟩ (by decide) (by decide) with h | h
    · exact absurd h.1 hplaces
    · exact h.2

end Renderer

end Report

end Clausal
