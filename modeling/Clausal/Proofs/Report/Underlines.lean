import Clausal.Proofs.Report.Lines
import Clausal.Report.Rendering

/-!
What a snippet underlines. The first caret stands under the character that the span starts with, and
there are as many carets as the shown text has characters in the span, or one if it has none, when
the span leaves its line, ends within the shown text, or is no longer than one character. A longer
span that ends on its line among the carriage returns that are not shown has a caret for each of
them as well.
-/

namespace Clausal

namespace Text

theorem byteLength_take_lt {cs : List Char} {i j : Nat} (hlt : i < j) (hj : j ≤ cs.length) :
    byteLength (cs.take i) < byteLength (cs.take j) := by
  have hsplit := List.take_append_drop i (cs.take j)
  rw [List.take_take, Nat.min_eq_left (Nat.le_of_lt hlt)] at hsplit
  have hpos : 0 < byteLength ((cs.take j).drop i) := by
    refine Nat.lt_of_lt_of_le ?_ (length_le_byteLength _)
    rw [List.length_drop, List.length_take]
    omega
  rw [← hsplit, byteLength_append]
  omega

theorem byteLength_take_le_iff {cs : List Char} {i j : Nat} (hi : i ≤ cs.length)
    (hj : j ≤ cs.length) : byteLength (cs.take i) ≤ byteLength (cs.take j) ↔ i ≤ j := by
  constructor
  · intro hle
    by_contra hlt
    have hless := byteLength_take_lt (Nat.lt_of_not_le hlt) hi
    omega
  · intro hle
    rcases Nat.lt_or_eq_of_le hle with hlt | rfl
    · exact Nat.le_of_lt (byteLength_take_lt hlt hj)
    · exact Nat.le_refl _

end Text

namespace Report

open Text

namespace Lines

variable {source : String} {span : Span} {front back lines piece after shown : List Char}
  {part : List Char} {index low high : Nat}

def offsetIn (ls : Lines) (line : Nat) (shown : List Char) (index : Nat) : Nat :=
  ls.lineStart line + byteLength (shown.take index)

/-- How many characters of the text that is shown of a line lie in a span. -/
def covered (ls : Lines) (line : Nat) (shown : List Char) (span : Span) : Nat :=
  (List.range shown.length).countP fun index =>
    span.start ≤ ls.offsetIn line shown index ∧ ls.offsetIn line shown index < span.stop

theorem countP_range_between (n low high : Nat) :
    ((List.range n).countP fun index => low ≤ index ∧ index < high) = min n high - low := by
  induction n with
  | zero => simp
  | succ n ih =>
      rw [List.range_succ, List.countP_append, ih]
      by_cases hn : low ≤ n ∧ n < high <;> simp [hn] <;> omega

theorem covered_eq {ls : Lines} {line : Nat}
    (hlow : ∀ index < shown.length, span.start ≤ ls.offsetIn line shown index ↔ low ≤ index)
    (hhigh : ∀ index < shown.length, ls.offsetIn line shown index < span.stop ↔ index < high) :
    ls.covered line shown span = min shown.length high - low := by
  rw [covered, ← countP_range_between]
  refine List.countP_congr fun index hindex => ?_
  have hlt := List.mem_range.mp hindex
  simp only [decide_eq_true_eq, hlow index hlt, hhigh index hlt]

section Short

variable (hsize : source.utf8ByteSize < maxOffset)
  (hline : IsLine source.toList lines piece after) (hshown : shown <+: piece)

include hsize hline hshown

theorem offsetIn_eq (hindex : index ≤ shown.length) :
    (ofSource source).offsetIn (1 + lines.count '\n') shown index =
      byteLength lines + byteLength (piece.take index) := by
  obtain ⟨cut, rfl⟩ := hshown
  rw [offsetIn, lineStart_of_whole hsize hline.text hline.whole,
    List.take_append_of_le_length hindex]

theorem offsetIn_le_iff (hindex : index ≤ shown.length) (hpart : part <+: piece) :
    (ofSource source).offsetIn (1 + lines.count '\n') shown index ≤
      byteLength lines + byteLength part ↔ index ≤ part.length := by
  have hle := hshown.length_le
  rw [List.prefix_iff_eq_take.mp hpart, offsetIn_eq hsize hline hshown hindex,
    Nat.add_le_add_iff_left, byteLength_take_le_iff (by omega) hpart.length_le,
    ← List.prefix_iff_eq_take.mp hpart]

theorem le_offsetIn_iff (hindex : index ≤ shown.length) (hpart : part <+: piece) :
    byteLength lines + byteLength part ≤
      (ofSource source).offsetIn (1 + lines.count '\n') shown index ↔ part.length ≤ index := by
  have hle := hshown.length_le
  rw [List.prefix_iff_eq_take.mp hpart, offsetIn_eq hsize hline hshown hindex,
    Nat.add_le_add_iff_left, byteLength_take_le_iff hpart.length_le (by omega),
    ← List.prefix_iff_eq_take.mp hpart]

end Short

end Lines

namespace Renderer

open Lines

def location (path : Option String) (line column : Nat) : String :=
  let place := toString line ++ ":" ++ toString column
  match path with
  | some path => path ++ ":" ++ place
  | none => place

/-- The text at the end of the row of carets. -/
def saying (colored : Bool) (message : String) : String :=
  if message.isEmpty then "" else " " ++ Paint.error.on colored message

/-- The place of a line and a column, the row that shows the line and the row of carets under it,
behind margins of the same width. -/
def rows (path : Option String) (colored : Bool) (line : Nat) (shown : List Char)
    (indent carets : Nat) (message : String) : String :=
  let margin := blanks (toString line).length
  margin ++ "--> " ++ location path line (1 + indent) ++ "\n" ++
    margin ++ " |\n" ++
    toString line ++ " | " ++ String.ofList shown ++ "\n" ++
    margin ++ " | " ++ blanks indent ++
    Paint.error.on colored (String.ofList (List.replicate carets '^')) ++
    saying colored message ++ "\n"

def covers (source : String) (span : Span) : List Char :=
  (slice? source.toList span.start span.stop).getD []

/-- The span leaves the line, ends within the text that is shown of it, or is no longer than one
character. -/
def KeepsToText (source : String) (span : Span) (line : Nat) (shown : List Char) : Prop :=
  (ofSource source).lineAt span.stop ≠ line ∨
    span.stop ≤ (ofSource source).offsetIn line shown shown.length ∨
    (covers source span).length ≤ 1

variable {source : String} {span : Span} {front back lines piece after shown : List Char}

/-- The line that a span starts on, the text that is shown of it, how far it is to the first caret
and how many carets there are. -/
structure Underlines (source : String) (span : Span) (line : Nat) (shown : List Char)
    (indent carets : Nat) : Prop where
  onLine : line = (ofSource source).lineAt span.start
  text : (ofSource source).lineText? line = some shown
  first : ∀ index < shown.length,
    (ofSource source).offsetIn line shown index = span.start ↔ index = indent
  past : shown.length ≤ indent ↔
    ∀ index < shown.length, (ofSource source).offsetIn line shown index < span.start
  count : carets = max 1 (if (ofSource source).lineAt span.stop = line
    then (covers source span).length else (ofSource source).covered line shown span)
  exact : carets = max 1 ((ofSource source).covered line shown span) ↔
    KeepsToText source span line shown
  within : indent + carets ≤ shown.length ∨ carets = 1 ↔ KeepsToText source span line shown

theorem exists_lineEnd (back : List Char) :
    ∃ rest after, back = rest ++ after ∧ '\n' ∉ rest ∧
      (after = [] ∨ ∃ later, after = '\n' :: later) := by
  by_cases hends : '\n' ∈ back
  · obtain ⟨rest, later, rfl, hrest⟩ := List.eq_append_cons_of_mem hends
    exact ⟨rest, '\n' :: later, rfl, hrest, .inr ⟨later, rfl⟩⟩
  · exact ⟨back, [], (List.append_nil _).symm, hends, .inl rfl⟩

theorem isLine_of_front {tail : List Char} (hwhole : Whole lines)
    (hfront : front = lines ++ lastLine front) (htext : source.toList = front ++ (tail ++ after))
    (htail : '\n' ∉ tail) (hclosed : after = [] ∨ ∃ later, after = '\n' :: later) :
    IsLine source.toList lines (lastLine front ++ tail) after := by
  refine ⟨?_, hwhole, fun hmem => ?_, hclosed⟩
  · calc source.toList = lines ++ lastLine front ++ (tail ++ after) := by rw [← hfront, htext]
      _ = lines ++ (lastLine front ++ tail ++ after) := by simp only [List.append_assoc]
  · exact (List.mem_append.mp hmem).elim (not_mem_lastLine front) htail

/-- The carets start where the span does, if the characters from there on are those that are not
before it. -/
theorem Underlines.of_starts {line indent carets : Nat}
    (honLine : line = (ofSource source).lineAt span.start)
    (htext : (ofSource source).lineText? line = some shown)
    (hstarts : ∀ index < shown.length,
      (span.start ≤ (ofSource source).offsetIn line shown index ↔ indent ≤ index) ∧
        ((ofSource source).offsetIn line shown index ≤ span.start ↔ index ≤ indent))
    (hcount : carets = max 1 (if (ofSource source).lineAt span.stop = line
      then (covers source span).length else (ofSource source).covered line shown span))
    (hexact : carets = max 1 ((ofSource source).covered line shown span) ↔
      KeepsToText source span line shown)
    (hwithin : indent + carets ≤ shown.length ∨ carets = 1 ↔
      KeepsToText source span line shown) :
    Underlines source span line shown indent carets := by
  refine ⟨honLine, htext, fun index hindex => ?_, ⟨fun hle index hindex => ?_, fun hall => ?_⟩,
    hcount, hexact, hwithin⟩
  · obtain ⟨hlow, hhigh⟩ := hstarts index hindex
    rw [Nat.le_antisymm_iff, hlow, hhigh, ← Nat.le_antisymm_iff]
  · have hlow := (hstarts index hindex).1
    omega
  · by_contra hlt
    have hindex : indent < shown.length := by omega
    have hbefore := hall indent hindex
    have hlow := (hstarts indent hindex).1
    omega

section Short

variable (hsize : source.utf8ByteSize < maxOffset)

include hsize

/-- The line that a span starts on, with what is shown of it. The characters that are shown from the
start of the span on are those after the last line in front of the span. -/
theorem exists_shown {tail : List Char} (htext : source.toList = front ++ (tail ++ after))
    (htail : '\n' ∉ tail) (hclosed : after = [] ∨ ∃ later, after = '\n' :: later)
    (hstart : byteLength front = span.start) :
    ∃ lines shown, front = lines ++ lastLine front ∧
      IsLine source.toList lines (lastLine front ++ tail) after ∧
      shown <+: lastLine front ++ tail ∧
      (ofSource source).lineText? (1 + front.count '\n') = some shown ∧
      ∀ index < shown.length,
        (span.start ≤ (ofSource source).offsetIn (1 + front.count '\n') shown index ↔
          (lastLine front).length ≤ index) ∧
        ((ofSource source).offsetIn (1 + front.count '\n') shown index ≤ span.start ↔
          index ≤ (lastLine front).length) := by
  obtain ⟨lines, hwhole, hfront⟩ := exists_whole front
  have hline := isLine_of_front hwhole hfront htext htail hclosed
  have hshown := List.rdropWhile_prefix (· == '\r') (l := lastLine front ++ tail)
  have hlineText := lineText?_of_line hsize hline
  have hplace : span.start = byteLength lines + byteLength (lastLine front) := by
    rw [← hstart, ← byteLength_append, ← hfront]
  have hpart : lastLine front <+: lastLine front ++ tail := List.prefix_append _ _
  rw [count_whole hfront, hplace]
  refine ⟨lines, _, hfront, hline, hshown, hlineText, fun index hindex => ?_⟩
  exact ⟨le_offsetIn_iff hsize hline hshown (Nat.le_of_lt hindex) hpart,
    offsetIn_le_iff hsize hline hshown (Nat.le_of_lt hindex) hpart⟩

/-- A span that starts on a line and ends on a later one. -/
theorem underlines_onwards {middle : List Char}
    (htext : source.toList = front ++ (middle ++ back)) (hends : '\n' ∈ middle)
    (hstart : byteLength front = span.start) (hstop : byteLength (front ++ middle) = span.stop) :
    ∃ shown, Underlines source span (1 + front.count '\n') shown (lastLine front).length
      (underline (ofSource source) span (1 + (lastLine front).length) shown) := by
  obtain ⟨tail, later, rfl, htail⟩ := List.eq_append_cons_of_mem hends
  have hsplit : source.toList = front ++ (tail ++ '\n' :: (later ++ back)) := by simpa using htext
  obtain ⟨lines, shown, hfront, hline, hshown, hlineText, hstarts⟩ :=
    exists_shown hsize hsplit htail (.inr ⟨later ++ back, rfl⟩) hstart
  have hbefore : ∀ index < shown.length,
      (ofSource source).offsetIn (1 + lines.count '\n') shown index < span.stop := by
    intro index hindex
    have hle := hshown.length_le
    have hoffset := (offsetIn_le_iff hsize hline hshown (Nat.le_of_lt hindex)
      (List.prefix_refl _)).mpr (by omega)
    have hends : 0 < byteLength ('\n' :: later) := by
      rw [byteLength_cons]
      exact Nat.lt_of_lt_of_le (Char.utf8Size_pos _) (Nat.le_add_right _ _)
    rw [← hstop, byteLength_append, byteLength_append, hfront, byteLength_append]
    rw [byteLength_append] at hoffset
    omega
  rw [← count_whole hfront] at hbefore
  have hlineStart := lineAt_eq hsize htext (min_of_append htext)
  have hstopText := htext.trans (List.append_assoc _ _ _).symm
  have hlineStop := lineAt_eq hsize hstopText (min_of_append hstopText)
  rw [hstart] at hlineStart
  rw [hstop] at hlineStop
  have hlater : (ofSource source).lineAt span.stop ≠ 1 + front.count '\n' := by
    rw [hlineStop, List.count_append, List.count_append, List.count_cons_self]
    omega
  have hcovered : (ofSource source).covered (1 + front.count '\n') shown span =
      shown.length - (lastLine front).length := by
    rw [covered_eq (fun index hindex => (hstarts index hindex).1)
      fun index hindex => iff_of_true (hbefore index hindex) hindex, Nat.min_self]
  have hunderline : underline (ofSource source) span (1 + (lastLine front).length) shown =
      max 1 (shown.length - (lastLine front).length) := by
    simp only [underline]
    rw [if_neg (by rw [hlineStart]; exact hlater)]
    omega
  have hkeeps : KeepsToText source span (1 + front.count '\n') shown := .inl hlater
  refine ⟨shown, .of_starts hlineStart.symm hlineText hstarts ?_ ?_ ?_⟩
  · rw [if_neg hlater, hunderline, hcovered]
  · rw [hunderline, hcovered]
    exact iff_of_true rfl hkeeps
  · rw [hunderline]
    exact iff_of_true (by omega) hkeeps

/-- A span that starts and ends on the same line. -/
theorem underlines_onLine {middle : List Char}
    (htext : source.toList = front ++ (middle ++ back)) (hends : '\n' ∉ middle)
    (hstart : byteLength front = span.start) (hstop : byteLength (front ++ middle) = span.stop) :
    ∃ shown, Underlines source span (1 + front.count '\n') shown (lastLine front).length
      (underline (ofSource source) span (1 + (lastLine front).length) shown) := by
  obtain ⟨rest, after, rfl, hrest, hclosed⟩ := exists_lineEnd back
  have htail : '\n' ∉ middle ++ rest := fun hmem =>
    (List.mem_append.mp hmem).elim hends hrest
  have hsplit : source.toList = front ++ (middle ++ rest ++ after) := by simpa using htext
  obtain ⟨lines, shown, hfront, hline, hshown, hlineText, hstarts⟩ :=
    exists_shown hsize hsplit htail hclosed hstart
  have hplace : span.stop = byteLength lines + byteLength (lastLine front ++ middle) := by
    rw [← hstop, ← byteLength_append, ← List.append_assoc, ← hfront]
  have hpart : lastLine front ++ middle <+: lastLine front ++ (middle ++ rest) := ⟨rest, by simp⟩
  have hlow {index : Nat} (hindex : index ≤ shown.length) :=
    le_offsetIn_iff hsize hline hshown hindex hpart
  rw [← hplace, List.length_append, ← count_whole hfront] at hlow
  have hlineStart := lineAt_eq hsize htext (min_of_append htext)
  have hstopText := htext.trans (List.append_assoc _ _ _).symm
  have hposition := position_eq hsize hstopText (min_of_append hstopText)
  rw [hstart] at hlineStart
  rw [hstop, List.count_append, List.count_eq_zero_of_not_mem hends, Nat.add_zero,
    lastLine_append_of_not_mem hends, List.length_append] at hposition
  have hlineStop : (ofSource source).lineAt span.stop = 1 + front.count '\n' :=
    congrArg Prod.fst hposition
  have hcovered : (ofSource source).covered (1 + front.count '\n') shown span =
      min shown.length ((lastLine front).length + middle.length) - (lastLine front).length := by
    refine covered_eq (fun index hindex => (hstarts index hindex).1) fun index hindex => ?_
    have hindexLow := hlow (Nat.le_of_lt hindex)
    omega
  have hunderline : underline (ofSource source) span (1 + (lastLine front).length) shown =
      max 1 middle.length := by
    simp only [underline, hposition, hlineStart, if_true]
    split <;> omega
  have hcovers : covers source span = middle := by
    rw [covers, ← hstart, ← hstop, htext, byteLength_append, slice?_append]
    rfl
  have hkeeps : KeepsToText source span (1 + front.count '\n') shown ↔
      (lastLine front).length + middle.length ≤ shown.length ∨ middle.length ≤ 1 := by
    rw [KeepsToText, hlow (Nat.le_refl _), hcovers]
    simp [hlineStop]
  refine ⟨shown, .of_starts hlineStart.symm hlineText hstarts ?_ ?_ ?_⟩
  · rw [if_pos hlineStop, hunderline, hcovers]
  · rw [hunderline, hcovered, hkeeps]
    omega
  · rw [hunderline, hkeeps]
    omega

/-- The part of a report that shows the source has the line where the span starts. The first caret
stands under the first character of the span, and the carets are counted as `Underlines` says. -/
theorem snippet_underlines (hspan : span.Aligned source) (path : Option String) (colored : Bool)
    (message : String) :
    ∃ line shown indent carets,
      snippet colored ⟨path, ofSource source⟩ ⟨span, message⟩ =
        rows path colored line shown indent carets message ∧
      Underlines source span line shown indent carets := by
  obtain ⟨front, middle, back, htext, hstart, hstop⟩ :=
    exists_middle hspan.start_isValid hspan.stop_isValid hspan.ordered
  obtain ⟨shown, hunder⟩ : ∃ shown, Underlines source span (1 + front.count '\n') shown
      (lastLine front).length
      (underline (ofSource source) span (1 + (lastLine front).length) shown) := by
    by_cases hends : '\n' ∈ middle
    · exact underlines_onwards hsize htext hends hstart hstop
    · exact underlines_onLine hsize htext hends hstart hstop
  have hplace := position_eq hsize htext (min_of_append htext)
  rw [hstart] at hplace
  refine ⟨_, shown, _, _, ?_, hunder⟩
  simp only [snippet, hplace, hunder.text, Option.getD_some, Nat.add_sub_cancel_left]
  rfl

end Short

/-- A literal that is not closed on its line, in a source with carriage returns. -/
private def unclosed : String := "\"ab\r\ny;"

theorem snippet_underlines_unclosed :
    unclosed.utf8ByteSize < maxOffset ∧ Span.Aligned unclosed ⟨0, 4⟩ ∧
      ∃ shown indent, snippet false ⟨none, ofSource unclosed⟩ ⟨⟨0, 4⟩, ""⟩ =
          rows none false 1 shown indent 4 "" ∧
        Underlines unclosed ⟨0, 4⟩ 1 shown indent 4 ∧ shown = ['"', 'a', 'b'] ∧
        ¬ KeepsToText unclosed ⟨0, 4⟩ 1 shown := by
  have hsize : unclosed.utf8ByteSize < maxOffset := by decide +kernel
  have htext : unclosed.toList = ['"', 'a', 'b', '\r'] ++ ['\n', 'y', ';'] := by decide +kernel
  have hspan : Span.Aligned unclosed ⟨0, 4⟩ :=
    ⟨⟨Nat.zero_le 4, by decide +kernel⟩, TokenStream.isValid_of_append (List.nil_append _).symm,
      TokenStream.isValid_of_append htext⟩
  obtain ⟨line, shown, indent, carets, hsnippet, hunder⟩ :=
    snippet_underlines hsize hspan none false ""
  obtain rfl : line = 1 := hunder.onLine.trans (by decide +kernel)
  obtain rfl : ['"', 'a', 'b'] = shown := by
    have hshown : (ofSource unclosed).lineText? 1 = some ['"', 'a', 'b'] := by decide +kernel
    exact Option.some.inj (hshown.symm.trans hunder.text)
  obtain rfl : carets = 4 := by
    rw [hunder.count, if_pos (by decide +kernel)]
    decide +kernel
  refine ⟨hsize, hspan, _, indent, hsnippet, hunder, rfl, fun hkeeps => ?_⟩
  have hexact := hunder.exact.mpr hkeeps
  revert hexact
  decide +kernel

end Renderer

end Report

end Clausal
