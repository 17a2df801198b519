import Mathlib.Computability.Language
import Clausal.Proofs.Token.Spelling

/-!
The rules of the tokens, written down apart from the reader. A rule is a regular language, and a
text may begin with words of several rules, of several lengths. Which rules a text can begin with at
all shows on its first character, but for the words with a spelling of their own.
-/

namespace Clausal

open Computability

/-- The spellings of a kind that has only so many. -/
def Token.Kind.spellings : Kind → List String
  | keyword => ["match", "when", "otherwise"]
  | typeName => ["number", "string", "bool"]
  | boolean => ["true", "false"]
  | arrow => ["->"]
  | compareOp => ["<=", ">=", "==", "<", ">"]
  | logicOp => ["&&", "||", "!"]
  | arithOp => ["+", "-", "*", "/"]
  | assign => ["="]
  | leftParen => ["("]
  | rightParen => [")"]
  | leftBracket => ["["]
  | rightBracket => ["]"]
  | leftBrace => ["\x7b"]
  | rightBrace => ["\x7d"]
  | comma => [","]
  | semicolon => [";"]
  | comment | string | number | identifier | blank => []

namespace Lexeme

def oneOf (p : Char → Bool) : Language Char :=
  ({w | ∃ c, p c = true ∧ w = [c]} : Set (List Char))

def exactly (s : String) : Language Char := ({s.toList} : Set (List Char))

inductive Rule
  | comment
  | string
  /-- A string up to where it lacks its closing quote. -/
  | openString
  | number
  /-- A number that runs into a word. -/
  | gluedNumber
  | identifier
  | blank
  /-- A kind that has only so many spellings. -/
  | spelled (kind : Token.Kind)

namespace Rule

def digits : Language Char := oneOf isDigit * (oneOf isDigit)∗

/-- Digits, and a fraction if a digit follows the point. -/
def numeral : Language Char := digits * (1 + exactly "." * digits)

def word : Language Char := oneOf isWordStart * (oneOf isWordChar)∗

/-- One step inside a string: a plain character, or a backslash with the character after it. -/
def stringStep : Language Char :=
  oneOf (fun c => c != '"' && c != '\\' && c != '\n') + exactly "\\" * oneOf (· != '\n')

def pattern : Rule → Language Char
  | comment => exactly "//" * (oneOf (· != '\n'))∗
  | string => exactly "\"" * stringStep∗ * exactly "\""
  | openString => exactly "\"" * stringStep∗
  | number => numeral
  | gluedNumber => numeral * word
  | identifier => word
  | blank => oneOf Text.isBlank * (oneOf Text.isBlank)∗
  | spelled kind => ({w | ∃ s ∈ kind.spellings, w = s.toList} : Set (List Char))

def verdict : Rule → Except LexError.Cause Token.Kind
  | comment => .ok .comment
  | string => .ok .string
  | openString => .error .unterminatedString
  | number => .ok .number
  | gluedNumber => .error .malformedNumber
  | identifier => .ok .identifier
  | blank => .ok .blank
  | spelled kind => .ok kind

/-- Keywords, type names and boolean literals go before identifiers. -/
def GoesBefore (r s : Rule) : Prop :=
  s = identifier ∧ r ∈ [spelled .keyword, spelled .typeName, spelled .boolean]

/-- How a word of the rule can begin. -/
def Opens : Rule → Char → Prop
  | comment, c => c = '/'
  | string, c | openString, c => c = '"'
  | number, c | gluedNumber, c => isDigit c = true
  | identifier, c => isWordStart c = true
  | blank, c => Text.isBlank c = true
  | spelled kind, c => ∃ s ∈ kind.spellings, s.toList.head? = some c

end Rule

section Languages

variable {p : Char → Bool} {c : Char} {w : List Char}

theorem cons_mem_oneOf_mul {L : Language Char} : c :: w ∈ oneOf p * L ↔ p c = true ∧ w ∈ L := by
  rw [Language.mem_mul]
  constructor
  · rintro ⟨_, ⟨d, hd, rfl⟩, v, hv, hw⟩
    obtain ⟨rfl, rfl⟩ := List.cons.inj hw
    exact ⟨hd, hv⟩
  · rintro ⟨hc, hw⟩
    exact ⟨[c], ⟨c, hc, rfl⟩, w, hw, rfl⟩

theorem mem_kstar_oneOf : w ∈ (oneOf p)∗ ↔ ∀ c ∈ w, p c = true := by
  rw [Language.mem_kstar]
  constructor
  · rintro ⟨ws, rfl, hws⟩ c hc
    obtain ⟨v, hv, hc⟩ := List.mem_flatten.mp hc
    obtain ⟨d, hd, rfl⟩ := hws v hv
    obtain rfl := List.mem_singleton.mp hc
    exact hd
  · intro hw
    refine ⟨w.map ([·]), by rw [← List.flatMap_def, List.flatMap_singleton'], fun v hv => ?_⟩
    obtain ⟨c, hc, rfl⟩ := List.mem_map.mp hv
    exact ⟨c, hw c hc, rfl⟩

theorem mem_exactly_mul {s : String} {L : Language Char} :
    w ∈ exactly s * L ↔ ∃ v ∈ L, w = s.toList ++ v := by
  rw [Language.mem_mul]
  constructor
  · rintro ⟨_, rfl, v, hv, rfl⟩
    exact ⟨v, hv, rfl⟩
  · rintro ⟨v, hv, rfl⟩
    exact ⟨s.toList, rfl, v, hv, rfl⟩

end Languages

namespace Rule

variable {c : Char} {w : List Char}

theorem cons_mem_word : c :: w ∈ word ↔ isWordStart c = true ∧ ∀ d ∈ w, isWordChar d = true := by
  rw [word, cons_mem_oneOf_mul, mem_kstar_oneOf]

theorem cons_mem_digits : c :: w ∈ digits ↔ isDigit c = true ∧ ∀ d ∈ w, isDigit d = true := by
  rw [digits, cons_mem_oneOf_mul, mem_kstar_oneOf]

theorem nil_not_mem_oneOf_mul {p : Char → Bool} {L : Language Char} : [] ∉ oneOf p * L := by
  rw [Language.mem_mul]
  rintro ⟨_, ⟨d, -, rfl⟩, v, -, hw⟩
  cases hw

theorem mem_digits : w ∈ digits ↔ w ≠ [] ∧ ∀ d ∈ w, isDigit d = true := by
  cases w with
  | nil => exact iff_of_false nil_not_mem_oneOf_mul fun h => h.1 rfl
  | cons c w => simp [cons_mem_digits]

theorem cons_mem_numeral : c :: w ∈ numeral ↔ isDigit c = true ∧ IsNumberTail w := by
  rw [numeral, Language.mem_mul]
  constructor
  · rintro ⟨whole, hwhole, part, hpart, hw⟩
    cases whole with
    | nil => exact absurd hwhole nil_not_mem_oneOf_mul
    | cons d ds =>
        obtain ⟨rfl, rfl : ds ++ part = w⟩ := List.cons.inj hw
        obtain ⟨hd, hds⟩ := cons_mem_digits.mp hwhole
        refine ⟨hd, ?_⟩
        rcases (Language.mem_add ..).mp hpart with rfl | hpart
        · rw [List.append_nil]
          exact .whole hds
        · obtain ⟨es, hes, rfl⟩ := mem_exactly_mul.mp hpart
          obtain ⟨hne, hes⟩ := mem_digits.mp hes
          exact .fraction hds hes hne
  · rintro ⟨hc, hw⟩
    cases hw with
    | whole hds =>
        exact ⟨c :: w, cons_mem_digits.mpr ⟨hc, hds⟩, [], .inl rfl, List.append_nil _⟩
    | @fraction ds es hds hes some =>
        have hfraction : '.' :: es ∈ exactly "." * digits :=
          mem_exactly_mul.mpr ⟨es, mem_digits.mpr ⟨some, hes⟩, rfl⟩
        exact ⟨c :: ds, cons_mem_digits.mpr ⟨hc, hds⟩, _, .inr hfraction, rfl⟩

theorem cons_mem_gluedNumber : c :: w ∈ pattern gluedNumber ↔
    isDigit c = true ∧ ∃ t d v, w = t ++ d :: v ∧ IsNumberTail t ∧ d :: v ∈ word := by
  rw [pattern, Language.mem_mul]
  constructor
  · rintro ⟨n, hn, u, hu, hw⟩
    cases n with
    | nil =>
        rw [numeral, digits, mul_assoc] at hn
        exact absurd hn nil_not_mem_oneOf_mul
    | cons d t =>
        obtain ⟨rfl, rfl⟩ := List.cons.inj hw
        obtain ⟨hd, ht⟩ := cons_mem_numeral.mp hn
        cases u with
        | nil => exact absurd hu nil_not_mem_oneOf_mul
        | cons e v => exact ⟨hd, t, e, v, rfl, ht, hu⟩
  · rintro ⟨hc, t, d, v, rfl, ht, hv⟩
    exact ⟨c :: t, cons_mem_numeral.mpr ⟨hc, ht⟩, d :: v, hv, rfl⟩

theorem mem_stringStep : w ∈ stringStep ↔
    (∃ c, (c ≠ '"' ∧ c ≠ '\\' ∧ c ≠ '\n') ∧ w = [c]) ∨ ∃ c, c ≠ '\n' ∧ w = ['\\', c] := by
  rw [stringStep, Language.mem_add, mem_exactly_mul]
  refine or_congr ?_ ?_
  · exact exists_congr fun c => and_congr_left' (by simp [and_assoc])
  · constructor
    · rintro ⟨_, ⟨c, hc, rfl⟩, rfl⟩
      exact ⟨c, by simpa using hc, rfl⟩
    · rintro ⟨c, hc, rfl⟩
      exact ⟨[c], ⟨c, by simpa using hc, rfl⟩, rfl⟩

/-- The steps of a string are passed over, whatever follows. -/
theorem stringLength_of_mem (h : w ∈ stringStep∗) (rest : List Char) :
    stringLength (w ++ rest) = ((stringLength rest).1 + w.length, (stringLength rest).2) := by
  rw [Language.mem_kstar] at h
  obtain ⟨steps, rfl, hsteps⟩ := h
  induction steps with
  | nil => rfl
  | cons step steps ih =>
      obtain ⟨hstep, hsteps⟩ := List.forall_mem_cons.mp hsteps
      have hrest := ih hsteps
      rw [List.flatten_cons]
      rcases mem_stringStep.mp hstep with ⟨c, ⟨hquote, hslash, hline⟩, rfl⟩ | ⟨c, hline, rfl⟩
      · rw [List.append_assoc, List.singleton_append,
          stringLength_of_plain _ hquote hline hslash, hrest]
        simp only [List.singleton_append, List.length_cons, Nat.add_assoc]
      · simp only [List.cons_append, List.nil_append, stringLength_of_escape _ hline, hrest,
          List.length_cons, Nat.add_assoc]

/-- The steps of a string end where it is closed, or where it cannot go on. -/
theorem exists_stringSteps (cs : List Char) :
    ∃ w ∈ stringStep∗, ∃ rest, cs = w ++ rest ∧
      (stringLength rest = (0, false) ∨ ∃ after, rest = '"' :: after) := by
  have hcons {step cs : List Char} (hstep : step ∈ stringStep)
      (h : ∃ w ∈ stringStep∗, ∃ rest, cs = w ++ rest ∧
        (stringLength rest = (0, false) ∨ ∃ after, rest = '"' :: after)) :
      ∃ w ∈ stringStep∗, ∃ rest, step ++ cs = w ++ rest ∧
        (stringLength rest = (0, false) ∨ ∃ after, rest = '"' :: after) := by
    obtain ⟨w, hw, rest, rfl, hrest⟩ := h
    obtain ⟨steps, rfl, hsteps⟩ := Language.mem_kstar.mp hw
    have hmore : (step :: steps).flatten ∈ stringStep∗ :=
      Language.join_mem_kstar (List.forall_mem_cons.mpr ⟨hstep, hsteps⟩)
    exact ⟨_, hmore, rest, by simp, hrest⟩
  induction cs using stringLength.induct with
  | case1 => exact ⟨[], Language.nil_mem_kstar _, [], rfl, .inl rfl⟩
  | case2 cs => exact ⟨[], Language.nil_mem_kstar _, '"' :: cs, rfl, .inr ⟨cs, rfl⟩⟩
  | case3 cs => exact ⟨[], Language.nil_mem_kstar _, '\n' :: cs, rfl, .inl rfl⟩
  | case4 => exact ⟨[], Language.nil_mem_kstar _, ['\\'], rfl, .inl rfl⟩
  | case5 cs => exact ⟨[], Language.nil_mem_kstar _, '\\' :: '\n' :: cs, rfl, .inl rfl⟩
  | case6 c cs hline _ _ _ ih => exact hcons (mem_stringStep.mpr (.inr ⟨c, hline, rfl⟩)) ih
  | case7 c cs hquote hline hlast hescape _ _ _ ih =>
      have hslash : c ≠ '\\' := fun hc => by
        cases cs with
        | nil => exact hlast hc rfl
        | cons c' cs' => exact hescape c' cs' hc rfl
      exact hcons (mem_stringStep.mpr (.inl ⟨c, ⟨hquote, hslash, hline⟩, rfl⟩)) ih

theorem nil_not_mem_pattern (r : Rule) : [] ∉ r.pattern := by
  cases r with
  | comment | openString =>
      rintro h
      obtain ⟨v, -, hv⟩ := mem_exactly_mul.mp h
      cases hv
  | string =>
      rintro h
      rw [pattern, mul_assoc] at h
      obtain ⟨v, -, hv⟩ := mem_exactly_mul.mp h
      cases hv
  | number =>
      rw [pattern, numeral, digits, mul_assoc]
      exact nil_not_mem_oneOf_mul
  | gluedNumber =>
      rw [pattern, numeral, digits, mul_assoc, mul_assoc]
      exact nil_not_mem_oneOf_mul
  | identifier | blank => exact nil_not_mem_oneOf_mul
  | spelled kind =>
      rintro ⟨s, hs, h⟩
      have hne : ∀ s ∈ kind.spellings, s.toList ≠ [] := by cases kind <;> decide
      exact hne s hs h.symm

theorem opens_of_mem {r : Rule} (h : c :: w ∈ r.pattern) : r.Opens c := by
  cases r with
  | comment | openString =>
      obtain ⟨v, -, hv⟩ := mem_exactly_mul.mp h
      exact (List.cons.inj hv).1
  | string =>
      rw [pattern, mul_assoc] at h
      obtain ⟨v, -, hv⟩ := mem_exactly_mul.mp h
      exact (List.cons.inj hv).1
  | number => exact (cons_mem_numeral.mp h).1
  | gluedNumber => exact (cons_mem_gluedNumber.mp h).1
  | identifier => exact (cons_mem_word.mp h).1
  | blank => exact (cons_mem_oneOf_mul.mp h).1
  | spelled kind =>
      obtain ⟨s, hs, h⟩ := h
      exact ⟨s, hs, by rw [← h]; rfl⟩

end Rule

end Lexeme

end Clausal
