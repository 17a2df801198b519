import Clausal.Proofs.Token.Lines
import Clausal.Proofs.Token.Rules

/-!
What the reader takes from the front of a text is the longest word that a rule accepts. A keyword, a
type name or a boolean literal goes before an identifier, and no other two rules accept the same
word, so no other rule takes anything; where none accepts any word, a character is unexpected.
-/

namespace Clausal

open Computability

namespace Lexeme

/-- The rule takes the word from the front of the text: no rule takes more, and another rule that
would take as much has to give way. -/
structure Rule.Takes (r : Rule) (word text : List Char) : Prop where
  front : word <+: text
  some : word ≠ []
  matched : word ∈ r.pattern
  longest : ∀ (s : Rule) (other : List Char), other <+: text → other ∈ s.pattern →
    other.length ≤ word.length
  first : ∀ s : Rule, word ∈ s.pattern → s = r ∨ r.GoesBefore s

/-- No rule takes anything from the front of the text. -/
def Unmatched (text : List Char) : Prop :=
  ∀ (r : Rule) (word : List Char), word <+: text → word ∈ r.pattern → word = []

/-- What is read at the front of a text is what the rules take from it. -/
inductive Reading.Exact (c : Char) (cs : List Char) : Reading → Prop
  | taken {r : Rule} {w : List Char} (front : w <+: cs) (h : r.Takes (c :: w) (c :: cs))
      (hr : r ≠ .blank) : Reading.Exact c cs ⟨r.verdict, w.length⟩
  | unexpected (h : Unmatched (c :: cs)) :
      Reading.Exact c cs (mistake (.unexpectedCharacter c) 0)

namespace Rule

variable {r s : Rule} {c : Char} {w v cs : List Char}

theorem mem_spelled {kind : Token.Kind} :
    w ∈ (spelled kind).pattern ↔ w ∈ kind.spellings.map String.toList := by
  rw [List.mem_map]
  exact exists_congr fun s => and_congr_right' eq_comm

/-- What shows on the first character of each spelling of a kind. -/
theorem of_opens_spelled {kind : Token.Kind} {p : Char → Bool}
    (hall : ∀ s ∈ kind.spellings, s.toList.head?.all p = true) (h : (spelled kind).Opens c) :
    p c = true := by
  obtain ⟨s, hs, hhead⟩ := h
  have hp := hall s hs
  rwa [hhead] at hp

/-- What holds of each spelling of a kind that begins like this. -/
theorem of_mem_spelled (Q : List Char → Prop) {kind : Token.Kind} {p : Char → Bool}
    (hall : ∀ s ∈ kind.spellings, s.toList.head?.any p = true → Q s.toList) (hc : p c = true)
    (h : c :: w ∈ (spelled kind).pattern) : Q (c :: w) := by
  obtain ⟨s, hs, hword⟩ := h
  rw [hword]
  exact hall s hs (by rw [← hword]; exact hc)

theorem exists_of_prefix {word : List Char} (hfront : word <+: c :: cs) (h : word ∈ s.pattern) :
    ∃ v, word = c :: v ∧ v <+: cs ∧ s.Opens c := by
  cases word with
  | nil => exact absurd h s.nil_not_mem_pattern
  | cons d v =>
      obtain ⟨rfl, hv⟩ := List.cons_prefix_cons.mp hfront
      exact ⟨v, rfl, hv, opens_of_mem h⟩

/-- Only the rules that can begin with the first character of the text count. -/
theorem takes_cons (hfront : w <+: cs) (hw : c :: w ∈ r.pattern)
    (hrules : ∀ (s : Rule) (v : List Char), s.Opens c → v <+: cs → c :: v ∈ s.pattern →
      v.length ≤ w.length ∧ (v = w → s = r ∨ r.GoesBefore s)) :
    r.Takes (c :: w) (c :: cs) := by
  refine ⟨List.cons_prefix_cons.mpr ⟨rfl, hfront⟩, List.cons_ne_nil c w, hw, ?_, ?_⟩
  · intro s other hother hs
    obtain ⟨v, rfl, hv, hopens⟩ := exists_of_prefix hother hs
    exact Nat.succ_le_succ (hrules s v hopens hv hs).1
  · exact fun s hs => (hrules s w (opens_of_mem hs) hfront hs).2 rfl

theorem unmatched_of_not_opens (h : ∀ r : Rule, ¬ r.Opens c) : Unmatched (c :: cs) := by
  intro r word hfront hr
  obtain ⟨v, -, -, hopens⟩ := exists_of_prefix hfront hr
  exact absurd hopens (h r)

end Rule

theorem length_le_runLength {p : Char → Bool} {v cs : List Char} (hv : ∀ c ∈ v, p c = true)
    (hfront : v <+: cs) : v.length ≤ runLength p cs := by
  obtain ⟨rest, rfl⟩ := hfront
  rw [runLength, List.takeWhile_append_of_pos hv, List.length_append]
  exact Nat.le_add_right _ _

theorem take_runLength {p : Char → Bool} (cs : List Char) :
    cs.take (runLength p cs) = cs.takeWhile p :=
  (List.prefix_iff_eq_take.mp (List.takeWhile_prefix p)).symm

section Characters

variable {c : Char}

theorem toNat_of_isDigit (h : isDigit c = true) : 48 ≤ c.toNat ∧ c.toNat ≤ 57 := by
  simp only [isDigit, Bool.and_eq_true, decide_eq_true_eq] at h
  exact h

theorem toNat_of_isWordStart (h : isWordStart c = true) : 65 ≤ c.toNat ∧ c.toNat ≤ 122 := by
  simp only [isWordStart, Bool.and_eq_true, decide_eq_true_eq, Bool.or_eq_true, beq_iff_eq] at h
  rcases h with (⟨ha, hz⟩ | ⟨ha, hz⟩) | rfl
  · exact ⟨ha, Nat.le_trans hz (by decide)⟩
  · exact ⟨Nat.le_trans (by decide) ha, hz⟩
  · decide

theorem toNat_of_isBlank (h : Text.isBlank c = true) : c.toNat ≤ 32 ∨ 133 ≤ c.toNat := by
  simp only [Text.isBlank, Bool.or_eq_true, Bool.and_eq_true, decide_eq_true_eq, beq_iff_eq] at h
  omega

theorem isDigit_of_isWordStart (h : isWordStart c = true) : isDigit c = false := by
  refine Bool.eq_false_iff.mpr fun hdigit => ?_
  have hword := toNat_of_isWordStart h
  have hdigit := toNat_of_isDigit hdigit
  omega

theorem isBlank_of_isWordStart (h : isWordStart c = true) : Text.isBlank c = false := by
  refine Bool.eq_false_iff.mpr fun hblank => ?_
  have hword := toNat_of_isWordStart h
  have hblank := toNat_of_isBlank hblank
  omega

theorem isBlank_of_isDigit (h : isDigit c = true) : Text.isBlank c = false := by
  refine Bool.eq_false_iff.mpr fun hblank => ?_
  have hdigit := toNat_of_isDigit h
  have hblank := toNat_of_isBlank hblank
  omega

/-- A word is one of the three kinds with words for spellings, or none of their spellings. -/
theorem wordKind_cases (w : List Char) :
    (∃ kind ∈ [Token.Kind.keyword, .typeName, .boolean], wordKind w = kind ∧
      w ∈ (Rule.spelled kind).pattern) ∨ wordKind w = .identifier := by
  unfold wordKind
  split
  · next h =>
    refine .inl ⟨.keyword, by simp, rfl, ?_⟩
    rcases h with rfl | rfl | rfl <;> exact Rule.mem_spelled.mpr (by decide)
  · split
    · next h =>
      refine .inl ⟨.typeName, by simp, rfl, ?_⟩
      rcases h with rfl | rfl | rfl <;> exact Rule.mem_spelled.mpr (by decide)
    · split
      · next h =>
        refine .inl ⟨.boolean, by simp, rfl, ?_⟩
        rcases h with rfl | rfl <;> exact Rule.mem_spelled.mpr (by decide)
      · exact .inr rfl

/-- A spelling that begins like a word is a word, and tells its kind. -/
theorem word_of_spelling {kind : Token.Kind} {w : List Char} (hc : isWordStart c = true)
    (h : c :: w ∈ (Rule.spelled kind).pattern) :
    wordKind (c :: w) = kind ∧ kind ≠ .identifier ∧ ∀ d ∈ w, isWordChar d = true := by
  have hword := Rule.of_mem_spelled
    (fun u => wordKind u = kind ∧ kind ≠ .identifier ∧ u.tail.all isWordChar = true)
    (by cases kind <;> decide) hc h
  rwa [List.tail_cons, List.all_eq_true] at hword

end Characters

section Words

variable {c : Char} {cs : List Char}

theorem opens_word {s : Rule} (hc : isWordStart c = true) (h : s.Opens c) :
    s = .identifier ∨ ∃ kind, s = .spelled kind := by
  cases s with
  | identifier => exact .inl rfl
  | spelled kind => exact .inr ⟨kind, rfl⟩
  | comment | string | openString =>
      obtain rfl : c = _ := h
      exact absurd hc (by decide)
  | number | gluedNumber =>
      exact absurd ((isDigit_of_isWordStart hc).symm.trans h) Bool.false_ne_true
  | blank => exact absurd ((isBlank_of_isWordStart hc).symm.trans h) Bool.false_ne_true

/-- What is read as a word is all that goes on as a word. -/
theorem word_exact (hc : isWordStart c = true) : (word c cs).Exact c cs := by
  have hfront : cs.takeWhile isWordChar <+: cs := List.takeWhile_prefix _
  have hword : c :: cs.takeWhile isWordChar ∈ Rule.word :=
    Rule.cons_mem_word.mpr ⟨hc, List.all_eq_true.mp List.all_takeWhile⟩
  rw [word, take_runLength]
  rcases wordKind_cases (c :: cs.takeWhile isWordChar) with ⟨kind, hkind, heq, hspelled⟩ | heq
  · rw [heq]
    refine .taken (r := .spelled kind) hfront ?_ (by simp)
    refine Rule.takes_cons hfront hspelled fun s v hopens hv hs => ?_
    rcases opens_word hc hopens with rfl | ⟨other, rfl⟩
    · refine ⟨length_le_runLength (Rule.cons_mem_word.mp hs).2 hv, fun _ => .inr ⟨rfl, ?_⟩⟩
      simpa using hkind
    · obtain ⟨hother, -, hchars⟩ := word_of_spelling hc hs
      refine ⟨length_le_runLength hchars hv, fun hvw => .inl (congrArg Rule.spelled ?_)⟩
      rw [← hother, hvw, heq]
  · rw [heq]
    refine .taken (r := .identifier) hfront ?_ (by simp)
    refine Rule.takes_cons hfront hword fun s v hopens hv hs => ?_
    rcases opens_word hc hopens with rfl | ⟨other, rfl⟩
    · exact ⟨length_le_runLength (Rule.cons_mem_word.mp hs).2 hv, fun _ => .inl rfl⟩
    · obtain ⟨hother, hne, hchars⟩ := word_of_spelling hc hs
      refine ⟨length_le_runLength hchars hv, fun hvw => absurd ?_ hne⟩
      rw [← hother, hvw, heq]

end Words

section Numbers

variable {c : Char} {t v cs : List Char}

theorem opens_number {s : Rule} (hc : isDigit c = true) (h : s.Opens c) :
    s = .number ∨ s = .gluedNumber := by
  cases s with
  | number => exact .inl rfl
  | gluedNumber => exact .inr rfl
  | comment | string | openString =>
      obtain rfl : c = _ := h
      exact absurd hc (by decide)
  | identifier => exact absurd ((isDigit_of_isWordStart h).symm.trans hc) Bool.false_ne_true
  | blank => exact absurd ((isBlank_of_isDigit hc).symm.trans h) Bool.false_ne_true
  | spelled kind =>
      have hall : ∀ s ∈ kind.spellings, s.toList.head?.all (!isDigit ·) = true := by
        cases kind <;> decide
      have hother := Rule.of_opens_spelled hall h
      rw [hc] at hother
      cases hother

theorem IsNumberTail.length_le (h : IsNumberTail t) (hfront : t <+: cs) :
    t.length ≤ numberLength cs := by
  obtain ⟨rest, rfl⟩ := hfront
  cases h with
  | whole hds =>
      have hwhole := length_le_runLength hds (List.prefix_append t rest)
      simp only [numberLength]
      split
      · split <;> omega
      · exact hwhole
  | @fraction ds es hds hes some =>
      have hwhole : runLength isDigit (ds ++ '.' :: (es ++ rest)) = ds.length :=
        runLength_append hds (by simp; rfl)
      have hplaces := length_le_runLength hes (List.prefix_append es rest)
      have hpos : 0 < es.length := List.length_pos_iff.mpr some
      rw [List.append_assoc, List.cons_append]
      simp only [numberLength, hwhole, List.drop_left, List.length_append, List.length_cons]
      rw [if_neg (by omega)]
      omega

theorem isNumberTail_take (cs : List Char) : IsNumberTail (cs.take (numberLength cs)) := by
  have hlength : numberLength (cs.take (numberLength cs) ++ cs.drop (numberLength cs)) =
      (cs.take (numberLength cs)).length := by
    rw [List.take_append_drop, List.length_take_of_le (numberLength_le cs)]
  exact isNumberTail_of_numberLength hlength

/-- A number that runs into a word does so after as much as can be a number. -/
theorem drop_of_gluedNumber (h : c :: v ∈ Rule.gluedNumber.pattern) (hfront : v <+: cs) :
    ∃ d rest, cs.drop (numberLength cs) = d :: rest ∧ isWordStart d = true ∧
      v.length ≤ numberLength cs + 1 + runLength isWordChar rest := by
  obtain ⟨-, t, d, u, rfl, ht, hu⟩ := Rule.cons_mem_gluedNumber.mp h
  obtain ⟨back, rfl⟩ := hfront
  obtain ⟨hd, hu⟩ := Rule.cons_mem_word.mp hu
  have hnext : ∀ e ∈ (d :: (u ++ back)).head?, isDigit e = false ∧ e ≠ '.' := by
    intro e he
    obtain rfl : d = e := by simpa using he
    refine ⟨isDigit_of_isWordStart hd, ?_⟩
    rintro rfl
    exact absurd hd (by decide)
  have hlength := ht.numberLength_append hnext
  have hrun := length_le_runLength hu (List.prefix_append u back)
  rw [List.append_assoc, List.cons_append, hlength, List.drop_left]
  refine ⟨d, u ++ back, rfl, hd, ?_⟩
  rw [List.length_append, List.length_cons]
  omega

/-- Where no word follows, the number is the longest word of both rules. -/
theorem exact_number (hc : isDigit c = true)
    (hnext : ∀ d rest, cs.drop (numberLength cs) = d :: rest → isWordStart d = false) :
    Reading.Exact c cs (token .number (numberLength cs)) := by
  have hfront : cs.take (numberLength cs) <+: cs := List.take_prefix _ cs
  have hlength : (cs.take (numberLength cs)).length = numberLength cs :=
    List.length_take_of_le (numberLength_le cs)
  have hglued (v : List Char) (hv : v <+: cs) : c :: v ∉ Rule.gluedNumber.pattern := by
    intro hs
    obtain ⟨d, rest, heq, hd, -⟩ := drop_of_gluedNumber hs hv
    rw [hnext d rest heq] at hd
    contradiction
  have hnumber : c :: cs.take (numberLength cs) ∈ Rule.number.pattern :=
    Rule.cons_mem_numeral.mpr ⟨hc, isNumberTail_take cs⟩
  rw [← hlength]
  refine .taken (r := .number) hfront ?_ (by simp)
  refine Rule.takes_cons hfront hnumber fun s v hopens hv hs => ?_
  rcases opens_number hc hopens with rfl | rfl
  · rw [hlength]
    exact ⟨(Rule.cons_mem_numeral.mp hs).2.length_le hv, fun _ => .inl rfl⟩
  · exact absurd hs (hglued v hv)

/-- Where a word follows, it is taken along, and makes a longer word than the number alone. -/
theorem exact_gluedNumber {d : Char} {rest : List Char} (hc : isDigit c = true)
    (hdrop : cs.drop (numberLength cs) = d :: rest) (hd : isWordStart d = true) :
    Reading.Exact c cs
      (mistake .malformedNumber (numberLength cs + 1 + runLength isWordChar rest)) := by
  let w := cs.take (numberLength cs) ++ d :: rest.takeWhile isWordChar
  have hfront : w <+: cs := by
    refine ⟨rest.dropWhile isWordChar, ?_⟩
    rw [List.append_assoc, List.cons_append, List.takeWhile_append_dropWhile, ← hdrop,
      List.take_append_drop]
  have hlength : w.length = numberLength cs + 1 + runLength isWordChar rest := by
    rw [List.length_append, List.length_take_of_le (numberLength_le cs), List.length_cons,
      runLength]
    omega
  have hglued : c :: w ∈ Rule.gluedNumber.pattern :=
    Rule.cons_mem_gluedNumber.mpr ⟨hc, _, d, _, rfl, isNumberTail_take cs,
      Rule.cons_mem_word.mpr ⟨hd, List.all_eq_true.mp List.all_takeWhile⟩⟩
  rw [← hlength]
  refine .taken (r := .gluedNumber) hfront ?_ (by simp)
  refine Rule.takes_cons hfront hglued fun s v hopens hv hs => ?_
  rcases opens_number hc hopens with rfl | rfl
  · have hle := (Rule.cons_mem_numeral.mp hs).2.length_le hv
    refine ⟨by omega, ?_⟩
    rintro rfl
    omega
  · obtain ⟨d', rest', heq, -, hle⟩ := drop_of_gluedNumber hs hv
    obtain ⟨rfl, rfl⟩ := List.cons.inj (hdrop.symm.trans heq)
    exact ⟨by omega, fun _ => .inl rfl⟩

theorem number_exact (hc : isDigit c = true) : (number cs).Exact c cs := by
  simp only [number]
  split
  · next d rest hdrop =>
    split
    · next hd => exact exact_gluedNumber hc hdrop hd
    · next hd =>
      refine exact_number hc fun d' rest' heq => ?_
      obtain ⟨rfl, rfl⟩ := List.cons.inj (hdrop.symm.trans heq)
      exact Bool.eq_false_iff.mpr hd
  · next hdrop =>
    refine exact_number hc fun d rest heq => ?_
    exact absurd (heq.symm.trans hdrop) (List.cons_ne_nil d rest)

end Numbers

section Strings

variable {v cs : List Char}

theorem opens_string {s : Rule} (h : s.Opens '"') : s = .string ∨ s = .openString := by
  cases s with
  | string => exact .inl rfl
  | openString => exact .inr rfl
  | spelled kind =>
      have hall : ∀ s ∈ kind.spellings, s.toList.head?.all (· != '"') = true := by
        cases kind <;> decide
      exact absurd (Rule.of_opens_spelled hall h) (by decide)
  | _ => exact absurd h (by unfold Rule.Opens; decide)

theorem cons_mem_openString : '"' :: v ∈ Rule.openString.pattern ↔ v ∈ Rule.stringStep∗ := by
  rw [Rule.pattern, mem_exactly_mul]
  constructor
  · rintro ⟨u, hu, heq⟩
    obtain ⟨-, rfl⟩ := List.cons.inj heq
    exact hu
  · exact fun hv => ⟨v, hv, rfl⟩

theorem cons_mem_string :
    '"' :: v ∈ Rule.string.pattern ↔ ∃ u ∈ Rule.stringStep∗, v = u ++ ['"'] := by
  rw [Rule.pattern, mul_assoc, mem_exactly_mul]
  constructor
  · rintro ⟨u, hu, heq⟩
    obtain ⟨-, rfl⟩ := List.cons.inj heq
    obtain ⟨w, hw, _, rfl, rfl⟩ := Language.mem_mul.mp hu
    exact ⟨w, hw, rfl⟩
  · rintro ⟨u, hu, rfl⟩
    exact ⟨u ++ ['"'], Language.append_mem_mul hu rfl, rfl⟩

theorem stringLength_of_string (h : '"' :: v ∈ Rule.string.pattern) (hfront : v <+: cs) :
    stringLength cs = (v.length, true) := by
  obtain ⟨u, hu, rfl⟩ := cons_mem_string.mp h
  obtain ⟨back, rfl⟩ := hfront
  rw [List.append_assoc, Rule.stringLength_of_mem hu, List.length_append, Nat.add_comm]
  rfl

theorem stringLength_of_openString (h : '"' :: v ∈ Rule.openString.pattern) (hfront : v <+: cs) :
    ∃ back, v ++ back = cs ∧
      stringLength cs = ((stringLength back).1 + v.length, (stringLength back).2) := by
  obtain ⟨back, rfl⟩ := hfront
  exact ⟨back, rfl, Rule.stringLength_of_mem (cons_mem_openString.mp h) back⟩

/-- What is read as a string, closed or not, is all that can be one. -/
theorem string_exact : (string cs).Exact '"' cs := by
  obtain ⟨w, hw, rest, rfl, hrest⟩ := Rule.exists_stringSteps cs
  have hlength := Rule.stringLength_of_mem hw rest
  rcases hrest with hrest | ⟨after, rfl⟩
  · rw [hrest, Nat.zero_add] at hlength
    have hclosed (v : List Char) (hv : v <+: w ++ rest) : '"' :: v ∉ Rule.string.pattern :=
      fun hs => Bool.false_ne_true
        (congrArg Prod.snd (hlength.symm.trans (stringLength_of_string hs hv)))
    have hopen : '"' :: w ∈ Rule.openString.pattern := cons_mem_openString.mpr hw
    simp only [string, hlength]
    refine .taken (r := .openString) (List.prefix_append w rest) ?_ (by simp)
    refine Rule.takes_cons (List.prefix_append w rest) hopen fun s v hopens hv hs => ?_
    rcases opens_string hopens with rfl | rfl
    · exact absurd hs (hclosed v hv)
    · obtain ⟨back, -, heq⟩ := stringLength_of_openString hs hv
      have hle := congrArg Prod.fst (hlength.symm.trans heq)
      dsimp only at hle
      exact ⟨by omega, fun _ => .inl rfl⟩
  · have hfront : w ++ ['"'] <+: w ++ '"' :: after := ⟨after, by simp⟩
    have hstring : '"' :: (w ++ ['"']) ∈ Rule.string.pattern := cons_mem_string.mpr ⟨w, hw, rfl⟩
    have hlength := stringLength_of_string hstring hfront
    simp only [string, hlength]
    refine .taken (r := .string) hfront ?_ (by simp)
    refine Rule.takes_cons hfront hstring fun s v hopens hv hs => ?_
    rcases opens_string hopens with rfl | rfl
    · have hsame := congrArg Prod.fst ((stringLength_of_string hs hv).symm.trans hlength)
      exact ⟨hsame.le, fun _ => .inl rfl⟩
    · obtain ⟨back, -, heq⟩ := stringLength_of_openString hs hv
      obtain ⟨hle, hclosed⟩ := Prod.ext_iff.mp (hlength.symm.trans heq)
      dsimp only at hle hclosed
      refine ⟨by omega, ?_⟩
      -- Were the closing quote a step of the string, the string would have to end with no step.
      rintro rfl
      have hzero : stringLength back = (0, true) := Prod.ext (by omega) hclosed.symm
      exact absurd rfl (stringLength_ne_zero hzero)

end Strings

section Symbols

variable {c : Char} {cs : List Char}

/-- A character that begins neither a word nor a number, a string or a comment begins a spelling
only. -/
theorem opens_symbol (hblank : Text.isBlank c = false) (hword : isWordStart c = false)
    (hdigit : isDigit c = false) (hquote : c ≠ '"') (hslash : c ≠ '/') {s : Rule}
    (h : s.Opens c) : ∃ kind, s = .spelled kind := by
  cases s with
  | spelled kind => exact ⟨kind, rfl⟩
  | comment => exact absurd h hslash
  | string | openString => exact absurd h hquote
  | number | gluedNumber => exact Bool.noConfusion (hdigit.symm.trans h)
  | identifier => exact Bool.noConfusion (hword.symm.trans h)
  | blank => exact Bool.noConfusion (hblank.symm.trans h)

/-- The longer of two spellings is taken if it is there, and else the shorter one, if it is one. -/
theorem pair_exact {second : Char} {together : Token.Kind} {alone : Reading}
    (hopens : ∀ s : Rule, s.Opens c → ∃ kind, s = .spelled kind)
    (hspellings : ∀ kind : Token.Kind, ∀ s ∈ kind.spellings, s.toList.head?.any (· == c) = true →
      s.toList = [c, second] ∧ kind = together ∨ s.toList = [c] ∧ alone.verdict = .ok kind)
    (htogether : [c, second] ∈ (Rule.spelled together).pattern)
    (halone : (∃ kind, alone = token kind 0 ∧ [c] ∈ (Rule.spelled kind).pattern) ∨
      alone = mistake (.unexpectedCharacter c) 0) :
    (pair second together alone cs).Exact c cs := by
  have hrules (s : Rule) (v : List Char) (hs : s.Opens c) (h : c :: v ∈ s.pattern) :
      ∃ kind, s = .spelled kind ∧
        (v = [second] ∧ kind = together ∨ v = [] ∧ alone.verdict = .ok kind) := by
    obtain ⟨kind, rfl⟩ := hopens s hs
    have hcases := Rule.of_mem_spelled
      (fun u => u = [c, second] ∧ kind = together ∨ u = [c] ∧ alone.verdict = .ok kind)
      (p := (· == c)) (hspellings kind) (beq_self_eq_true c) h
    exact ⟨kind, rfl, by simpa using hcases⟩
  by_cases hnext : ∃ ds, cs = second :: ds
  · obtain ⟨ds, rfl⟩ := hnext
    have hfront : [second] <+: second :: ds := ⟨ds, rfl⟩
    simp only [pair, if_pos]
    refine .taken (r := .spelled together) hfront ?_ (by simp)
    refine Rule.takes_cons hfront htogether fun s v hopens _ hs => ?_
    obtain ⟨kind, rfl, ⟨rfl, rfl⟩ | ⟨rfl, -⟩⟩ := hrules s v hopens hs
    · exact ⟨Nat.le_refl _, fun _ => .inl rfl⟩
    · exact ⟨Nat.zero_le _, fun hv => absurd hv.symm (List.cons_ne_nil _ _)⟩
  · have hpair : pair second together alone cs = alone := by
      cases cs with
      | nil => rfl
      | cons d ds => exact if_neg fun hd => hnext ⟨ds, congrArg (· :: ds) hd⟩
    have hshort (s : Rule) (v : List Char) (hs : s.Opens c) (hv : v <+: cs)
        (h : c :: v ∈ s.pattern) :
        v = [] ∧ ∃ kind, s = .spelled kind ∧ alone.verdict = .ok kind := by
      obtain ⟨kind, rfl, ⟨rfl, -⟩ | ⟨rfl, hverdict⟩⟩ := hrules s v hs h
      · obtain ⟨ds, rfl⟩ := hv
        exact absurd ⟨ds, rfl⟩ hnext
      · exact ⟨rfl, kind, rfl, hverdict⟩
    rw [hpair]
    rcases halone with ⟨kind, rfl, hspelled⟩ | rfl
    · refine .taken (r := .spelled kind) (List.nil_prefix) ?_ (by simp)
      refine Rule.takes_cons List.nil_prefix hspelled fun s v hopens hv hs => ?_
      obtain ⟨rfl, kind', rfl, hverdict⟩ := hshort s v hopens hv hs
      cases hverdict
      exact ⟨Nat.le_refl _, fun _ => .inl rfl⟩
    · refine .unexpected fun s word hword hs => ?_
      obtain ⟨v, rfl, hv, hopens⟩ := Rule.exists_of_prefix hword hs
      obtain ⟨-, kind, -, hverdict⟩ := hshort s v hopens hv hs
      cases hverdict

theorem single_exact {kind : Token.Kind}
    (hopens : ∀ s : Rule, s.Opens c → ∃ kind, s = .spelled kind)
    (h : single? c = some kind) : (token kind 0).Exact c cs := by
  have hspelled : [c] ∈ (Rule.spelled kind).pattern := by
    unfold single? at h
    split at h <;> cases h <;> exact Rule.mem_spelled.mpr (by decide)
  refine .taken (r := .spelled kind) List.nil_prefix ?_ (by simp)
  refine Rule.takes_cons List.nil_prefix hspelled fun s v hs _ hv => ?_
  obtain ⟨other, rfl⟩ := hopens s hs
  obtain ⟨hnil, hother⟩ := Rule.of_mem_spelled
    (fun u => u.tail = [] ∧ u.head?.bind single? = some other) (p := fun c => (single? c).isSome)
    (by cases other <;> decide) (by rw [h]; rfl) hv
  obtain rfl : v = [] := hnil
  obtain rfl : kind = other := Option.some.inj (h.symm.trans hother)
  exact ⟨Nat.le_refl _, fun _ => .inl rfl⟩

/-- What is read as a comment is all that is left of the line. -/
theorem slash_exact : (slash cs).Exact '/' cs := by
  have hopens (s : Rule) (h : s.Opens '/') : s = .comment ∨ ∃ kind, s = .spelled kind := by
    cases s with
    | comment => exact .inl rfl
    | spelled kind => exact .inr ⟨kind, rfl⟩
    | _ => exact absurd h (by unfold Rule.Opens; decide)
  have hspelling (kind : Token.Kind) (v : List Char)
      (h : '/' :: v ∈ (Rule.spelled kind).pattern) : v = [] ∧ kind = .arithOp :=
    Rule.of_mem_spelled (fun u => u.tail = [] ∧ kind = .arithOp) (p := (· == '/'))
      (by cases kind <;> decide) rfl h
  have hcomment (v : List Char) : '/' :: v ∈ Rule.comment.pattern ↔
      ∃ u, v = '/' :: u ∧ ∀ c ∈ u, (c != '\n') = true := by
    rw [Rule.pattern, mem_exactly_mul]
    constructor
    · rintro ⟨u, hu, heq⟩
      exact ⟨u, (List.cons.inj heq).2, mem_kstar_oneOf.mp hu⟩
    · rintro ⟨u, rfl, hu⟩
      exact ⟨u, mem_kstar_oneOf.mpr hu, rfl⟩
  unfold slash
  split
  · next ds =>
    have hfront : '/' :: ds.takeWhile (· != '\n') <+: '/' :: ds :=
      List.cons_prefix_cons.mpr ⟨rfl, List.takeWhile_prefix _⟩
    have hline : '/' :: '/' :: ds.takeWhile (· != '\n') ∈ Rule.comment.pattern :=
      (hcomment _).mpr ⟨_, rfl, List.all_eq_true.mp List.all_takeWhile⟩
    rw [Nat.add_comm]
    refine .taken (r := .comment) hfront ?_ (by simp)
    refine Rule.takes_cons hfront hline fun s v hs hv h => ?_
    rcases hopens s hs with rfl | ⟨kind, rfl⟩
    · obtain ⟨u, rfl, hu⟩ := (hcomment v).mp h
      have hle := length_le_runLength hu (List.cons_prefix_cons.mp hv).2
      exact ⟨Nat.succ_le_succ hle, fun _ => .inl rfl⟩
    · obtain ⟨rfl, -⟩ := hspelling kind v h
      exact ⟨Nat.zero_le _, fun hnil => absurd hnil.symm (List.cons_ne_nil _ _)⟩
  · next hnot =>
    have hspelled : ['/'] ∈ (Rule.spelled .arithOp).pattern := Rule.mem_spelled.mpr (by decide)
    refine .taken (r := .spelled .arithOp) List.nil_prefix ?_ (by simp)
    refine Rule.takes_cons List.nil_prefix hspelled fun s v hs hv h => ?_
    rcases hopens s hs with rfl | ⟨kind, rfl⟩
    · obtain ⟨u, rfl, -⟩ := (hcomment v).mp h
      obtain ⟨ds, rfl⟩ := hv
      exact absurd rfl (hnot (u ++ ds))
    · obtain ⟨rfl, rfl⟩ := hspelling kind v h
      exact ⟨Nat.le_refl _, fun _ => .inl rfl⟩

theorem symbol_exact (hblank : Text.isBlank c = false) (hword : isWordStart c = false)
    (hdigit : isDigit c = false) (hquote : c ≠ '"') : (symbol c cs).Exact c cs := by
  have hopens (hslash : c ≠ '/') (s : Rule) (h : s.Opens c) : ∃ kind, s = .spelled kind :=
    opens_symbol hblank hword hdigit hquote hslash h
  have hmem {kind : Token.Kind} {w : List Char} (h : w ∈ kind.spellings.map String.toList) :
      w ∈ (Rule.spelled kind).pattern := Rule.mem_spelled.mpr h
  unfold symbol
  dsimp only
  split
  · exact pair_exact (hopens (by decide)) (by intro kind; cases kind <;> decide)
      (hmem (by decide)) (.inl ⟨.arithOp, rfl, hmem (by decide)⟩)
  · exact pair_exact (hopens (by decide)) (by intro kind; cases kind <;> decide)
      (hmem (by decide)) (.inl ⟨.compareOp, rfl, hmem (by decide)⟩)
  · exact pair_exact (hopens (by decide)) (by intro kind; cases kind <;> decide)
      (hmem (by decide)) (.inl ⟨.compareOp, rfl, hmem (by decide)⟩)
  · exact pair_exact (hopens (by decide)) (by intro kind; cases kind <;> decide)
      (hmem (by decide)) (.inl ⟨.assign, rfl, hmem (by decide)⟩)
  · exact pair_exact (hopens (by decide)) (by intro kind; cases kind <;> decide)
      (hmem (by decide)) (.inr rfl)
  · exact pair_exact (hopens (by decide)) (by intro kind; cases kind <;> decide)
      (hmem (by decide)) (.inr rfl)
  · exact slash_exact
  · next hminus hless hgreater hequal hand hor hslash =>
    split
    · next kind hsingle => exact single_exact (hopens hslash) hsingle
    · next hsingle =>
      refine .unexpected (Rule.unmatched_of_not_opens fun s hs => ?_)
      obtain ⟨kind, rfl⟩ := hopens hslash s hs
      have hcases := Rule.of_opens_spelled (p := fun c => isWordStart c ||
        ['-', '<', '>', '=', '&', '|', '/'].contains c || (single? c).isSome)
        (by cases kind <;> decide) hs
      rw [hword, hsingle] at hcases
      have hlisted : c ∈ ['-', '<', '>', '=', '&', '|', '/'] := by simpa using hcases
      simp only [List.mem_cons, List.not_mem_nil, or_false] at hlisted
      rcases hlisted with h | h | h | h | h | h | h
      exacts [hminus h, hless h, hgreater h, hequal h, hand h, hor h, hslash h]

theorem read_exact (hblank : Text.isBlank c = false) : (read c cs).Exact c cs := by
  unfold read
  split
  · next hword => exact word_exact hword
  · next hword =>
    split
    · next hdigit => exact number_exact hdigit
    · next hdigit =>
      split
      · next hquote =>
        subst hquote
        exact string_exact
      · next hquote =>
        exact symbol_exact hblank (Bool.eq_false_iff.mpr hword) (Bool.eq_false_iff.mpr hdigit)
          hquote

end Symbols

theorem blank_takes {c : Char} {cs : List Char} (hc : Text.isBlank c = true) :
    Rule.blank.Takes (c :: cs.takeWhile Text.isBlank) (c :: cs) := by
  have hopens {s : Rule} (h : s.Opens c) : s = .blank := by
    cases s with
    | blank => rfl
    | comment | string | openString =>
        obtain rfl : c = _ := h
        exact absurd hc (by decide)
    | number | gluedNumber =>
        exact absurd ((isBlank_of_isDigit h).symm.trans hc) Bool.false_ne_true
    | identifier => exact absurd ((isBlank_of_isWordStart h).symm.trans hc) Bool.false_ne_true
    | spelled kind =>
        have hall : ∀ s ∈ kind.spellings, s.toList.head?.all (!Text.isBlank ·) = true := by
          cases kind <;> decide
        have hother := Rule.of_opens_spelled hall h
        rw [hc] at hother
        cases hother
  have hblank : c :: cs.takeWhile Text.isBlank ∈ Rule.blank.pattern :=
    cons_mem_oneOf_mul.mpr ⟨hc, mem_kstar_oneOf.mpr (List.all_eq_true.mp List.all_takeWhile)⟩
  refine Rule.takes_cons (List.takeWhile_prefix _) hblank fun s v hs hv h => ?_
  obtain rfl := hopens hs
  have hle := length_le_runLength (mem_kstar_oneOf.mp (cons_mem_oneOf_mul.mp h).2) hv
  exact ⟨hle, fun _ => .inl rfl⟩

/-- At most one word is taken from the front of a text, and by one rule. -/
theorem Rule.Takes.unique {r s : Rule} {word other text : List Char} (h : r.Takes word text)
    (h' : s.Takes other text) : word = other ∧ r = s := by
  have hle := h.longest s other h'.front h'.matched
  have hge := h'.longest r word h.front h.matched
  obtain rfl : word = other :=
    (List.prefix_of_prefix_length_le h.front h'.front hge).eq_of_length_le hle
  refine ⟨rfl, ?_⟩
  rcases h.first s h'.matched with heq | ⟨rfl, hword⟩
  · exact heq.symm
  · rcases h'.first r h.matched with heq | ⟨rfl, -⟩
    · exact heq
    · simp at hword

/-- Of the kinds with only so many spellings, none is the blank one. -/
theorem Rule.eq_blank_of_verdict {r : Rule} {word : List Char} (hmem : word ∈ r.pattern)
    (h : r.verdict = .ok .blank) : r = .blank := by
  cases r with
  | spelled kind =>
      obtain rfl : kind = .blank := Except.ok.inj h
      obtain ⟨s, hs, -⟩ := hmem
      cases hs
  | blank => rfl
  | _ => cases h

end Lexeme

end Clausal
