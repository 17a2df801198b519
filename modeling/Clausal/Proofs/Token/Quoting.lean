import Clausal.Proofs.Token.Extent
import Clausal.Proofs.Token.Munch
import Clausal.Token.Literal

/-!
String literals and the strings that they stand for. Where a literal ends and what it stands for is
decided by two scans of its own each, and both take a backslash and the character after it in one
step. So the scan for the value meets none of the texts that no literal has, and every string has a
literal: the characters that cannot stand in one, written as escapes.
-/

namespace Clausal

open Computability

namespace Literal

open Lexeme

/-- How a character may be written in a literal. -/
inductive Writes : Char → List Char → Prop
  | backslash : Writes '\\' ['\\', '\\']
  | quote : Writes '"' ['\\', '"']
  | newline : Writes '\n' ['\\', 'n']
  | carriageReturn : Writes '\r' ['\\', 'r']
  | tab : Writes '\t' ['\\', 't']
  | nul : Writes '\x00' ['\\', '0']
  | plain {c : Char} (hslash : c ≠ '\\') (hquote : c ≠ '"') (hline : c ≠ '\n') : Writes c [c]

/-- The text writes each character of the string in its turn, between two quotes. -/
def WritesString (text value : String) : Prop :=
  ∃ pieces, List.Forall₂ Writes value.toList pieces ∧
    text.toList = '"' :: (pieces.flatten ++ ['"'])

/-- The text between the quotes, if it has both. -/
def strictlyUnquoted : List Char → Option (List Char)
  | '"' :: cs => if cs.getLast? = some '"' then some cs.dropLast else none
  | _ => none

/-- The text without the backslashes of its escapes, if no backslash is the last character. -/
def strictlyUnescaped : List Char → Option (List Char)
  | [] => some []
  | ['\\'] => none
  | '\\' :: c :: cs =>
    match escape? c with
    | some value => (strictlyUnescaped cs).map (value :: ·)
    | none => (strictlyUnescaped cs).map ('\\' :: c :: ·)
  | c :: cs => (strictlyUnescaped cs).map (c :: ·)

/-- The value of a literal, where the scan for it has no use for what it does with other texts. -/
def strictValue? (raw : String) : Option String :=
  ((strictlyUnquoted raw.toList).bind strictlyUnescaped).map String.ofList

variable {c : Char} {cs w : List Char}

theorem unescaped_of_plain (hslash : c ≠ '\\') (cs : List Char) :
    unescaped (c :: cs) = c :: unescaped cs :=
  unescaped.eq_4 c cs (fun h => absurd h hslash) fun _ _ h => absurd h hslash

theorem strictlyUnescaped_of_plain (hslash : c ≠ '\\') (cs : List Char) :
    strictlyUnescaped (c :: cs) = (strictlyUnescaped cs).map (c :: ·) :=
  strictlyUnescaped.eq_4 c cs (fun h => absurd h hslash) fun _ _ h => absurd h hslash

/-- The scans agree on what is between the quotes: no step of a literal is cut in two. -/
theorem strictlyUnescaped_of_mem (h : w ∈ Rule.stringStep∗) :
    strictlyUnescaped w = some (unescaped w) := by
  obtain ⟨steps, rfl, hsteps⟩ := Language.mem_kstar.mp h
  clear h
  induction steps with
  | nil => rfl
  | cons step steps ih =>
      obtain ⟨hstep, hsteps⟩ := List.forall_mem_cons.mp hsteps
      have hrest := ih hsteps
      rw [List.flatten_cons]
      rcases Rule.mem_stringStep.mp hstep with ⟨c, ⟨-, hslash, -⟩, rfl⟩ | ⟨c, -, rfl⟩
      · rw [List.singleton_append, strictlyUnescaped_of_plain hslash,
          unescaped_of_plain hslash, hrest]
        rfl
      · simp only [List.cons_append, List.nil_append, strictlyUnescaped, unescaped, hrest]
        cases escape? c <;> rfl

theorem unquoted_quoted (body : List Char) : unquoted ('"' :: (body ++ ['"'])) = body := by
  simp [unquoted]

theorem strictlyUnquoted_quoted (body : List Char) :
    strictlyUnquoted ('"' :: (body ++ ['"'])) = some body := by
  simp [strictlyUnquoted]

theorem stringValue_quoted {text : String} {body : List Char}
    (htext : text.toList = '"' :: (body ++ ['"'])) :
    stringValue text = String.ofList (unescaped body) := by
  rw [stringValue, htext, unquoted_quoted]

theorem strictValue?_quoted {text : String} {body : List Char}
    (htext : text.toList = '"' :: (body ++ ['"'])) (hbody : body ∈ Rule.stringStep∗) :
    strictValue? text = some (stringValue text) := by
  rw [strictValue?, stringValue_quoted htext, htext, strictlyUnquoted_quoted, Option.bind_some,
    strictlyUnescaped_of_mem hbody, Option.map_some]

namespace Writes

theorem exists_piece (c : Char) : ∃ piece, Writes c piece := by
  by_cases hslash : c = '\\'
  · exact ⟨_, hslash ▸ backslash⟩
  · by_cases hquote : c = '"'
    · exact ⟨_, hquote ▸ quote⟩
    · by_cases hline : c = '\n'
      · exact ⟨_, hline ▸ newline⟩
      · exact ⟨_, plain hslash hquote hline⟩

theorem mem_stringStep (h : Writes c w) : w ∈ Rule.stringStep := by
  rw [Rule.mem_stringStep]
  cases h with
  | plain hslash hquote hline => exact .inl ⟨c, ⟨hquote, hslash, hline⟩, rfl⟩
  | backslash | quote | newline | carriageReturn | tab | nul => exact .inr ⟨_, by decide, rfl⟩

/-- What a character is written as is read as that character. -/
theorem unescaped_append (h : Writes c w) (rest : List Char) :
    unescaped (w ++ rest) = c :: unescaped rest := by
  cases h with
  | plain hslash hquote hline => exact unescaped_of_plain hslash rest
  | backslash | quote | newline | carriageReturn | tab | nul => rfl

end Writes

section Pieces

variable {pieces : List (List Char)}

theorem exists_pieces (cs : List Char) : ∃ pieces, List.Forall₂ Writes cs pieces := by
  induction cs with
  | nil => exact ⟨[], .nil⟩
  | cons c cs ih =>
      obtain ⟨piece, hpiece⟩ := Writes.exists_piece c
      obtain ⟨pieces, hpieces⟩ := ih
      exact ⟨piece :: pieces, .cons hpiece hpieces⟩

theorem flatten_mem_of_writes (h : List.Forall₂ Writes cs pieces) :
    pieces.flatten ∈ Rule.stringStep∗ := by
  refine Language.join_mem_kstar fun piece hpiece => ?_
  induction h with
  | nil => cases hpiece
  | cons hc _ ih =>
      rcases List.mem_cons.mp hpiece with rfl | hpiece
      · exact hc.mem_stringStep
      · exact ih hpiece

theorem unescaped_of_writes (h : List.Forall₂ Writes cs pieces) :
    unescaped pieces.flatten = cs := by
  induction h with
  | nil => rfl
  | cons hc _ ih => rw [List.flatten_cons, hc.unescaped_append, ih]

end Pieces

end Literal

namespace Lexeme

/-- What a rule for strings accepts is a string lexeme, whatever follows. -/
theorem stands_of_string {body : List Char} (h : body ∈ Rule.stringStep∗) (rest : List Char) :
    Stands .string ('"' :: (body ++ ['"'])) rest := by
  refine ⟨'"', body ++ ['"'], rfl, rfl, ?_⟩
  have hlength : stringLength (body ++ ['"'] ++ rest) = ((body ++ ['"']).length, true) := by
    rw [List.append_assoc, Rule.stringLength_of_mem h, List.length_append, Nat.add_comm]
    rfl
  have hread : read '"' (body ++ ['"'] ++ rest) = string (body ++ ['"'] ++ rest) := rfl
  rw [hread, string, hlength]
  rfl

end Lexeme

namespace TokenStream

open Lexeme Text

/-- Every token that is read is a word of a rule for its kind. -/
theorem Munched.exists_rule {offset : Nat} {cs : List Char} {items : List Token.Item}
    (h : Munched offset cs items) {t : Token} (ht : .ok t ∈ items) :
    ∃ r : Rule, r.verdict = .ok t.kind ∧ t.text.toList ∈ r.pattern := by
  induction h with
  | nothing => cases ht
  | @taken offset r word rest items htakes later ih =>
      rcases List.mem_append.mp ht with ht | ht
      · refine ⟨r, ?_⟩
        unfold Rule.items at ht
        split at ht
        · cases ht
        · next kind hnone hkind =>
          cases List.mem_singleton.mp ht
          exact ⟨hkind, by simpa using htakes.matched⟩
        · cases List.mem_singleton.mp ht
      · exact ih ht
  | unexpected hunmatched later ih =>
      rcases List.mem_cons.mp ht with ht | ht
      · cases ht
      · exact ih ht

theorem exists_body_of_string {source : String} {t : Token}
    (ht : .ok t ∈ (ofSource source).items) (hkind : t.kind = .string) :
    ∃ body ∈ Rule.stringStep∗, t.text.toList = '"' :: (body ++ ['"']) := by
  obtain ⟨r, hverdict, hmem⟩ := (munched_itemsFrom 0 source.toList).exists_rule ht
  rw [hkind] at hverdict
  cases r with
  | string =>
      cases htext : t.text.toList with
      | nil =>
          rw [htext] at hmem
          exact absurd hmem (Rule.nil_not_mem_pattern .string)
      | cons c v =>
          rw [htext] at hmem
          obtain rfl : c = '"' := Rule.opens_of_mem hmem
          obtain ⟨body, hbody, rfl⟩ := cons_mem_string.mp hmem
          exact ⟨body, hbody, rfl⟩
  | spelled kind =>
      obtain rfl := Except.ok.inj hverdict
      obtain ⟨s, hs, -⟩ := hmem
      cases hs
  | _ => cases hverdict

end TokenStream

namespace Literal

open TokenStream Text

/-- Every string has a literal; a text that writes a string in any of the ways there are is one
token, and the string is its value; and the value of a token is found without the steps for other
texts. -/
theorem literals_exact :
    (∀ value, ∃ text, WritesString text value) ∧
      (∀ text value, WritesString text value →
        (ofSource text).items = [.ok ⟨.string, text, .ofRange 0 text.utf8ByteSize⟩] ∧
          stringValue text = value) ∧
      ∀ source t, .ok t ∈ (ofSource source).items → t.kind = .string →
        strictValue? t.text = some (stringValue t.text) := by
  refine ⟨fun value => ?_, fun text value h => ?_, fun source t ht hkind => ?_⟩
  · obtain ⟨pieces, hpieces⟩ := exists_pieces value.toList
    exact ⟨String.ofList ('"' :: (pieces.flatten ++ ['"'])), pieces, hpieces,
      String.toList_ofList⟩
  · obtain ⟨pieces, hpieces, htext⟩ := h
    have hbody := flatten_mem_of_writes hpieces
    refine ⟨?_, ?_⟩
    · have hitems := itemsFrom_of_stands (Lexeme.stands_of_string hbody []) 0
      rw [List.append_nil, ← htext, itemsFrom_nil, String.ofList_toList, Nat.zero_add,
        byteLength_toList] at hitems
      exact hitems
    · rw [stringValue_quoted htext, unescaped_of_writes hpieces, String.ofList_toList]
  · obtain ⟨body, hbody, htext⟩ := exists_body_of_string ht hkind
    exact strictValue?_quoted htext hbody

/-- A string of what needs an escape, of what may do without one, and of what needs none. -/
private def troublesome : String := "\"a\\\n\r\t\x00€\\"

/-- A literal for it, in which the carriage return stands as it is. -/
private def troublesomeText : String := "\"\\\"a\\\\\\n\r\\t\\0€\\\\\""

private def unknownEscape : Token := ⟨.string, "\"\\€\\\\\"", ⟨4, 12⟩⟩

theorem literals_exact_troublesome :
    WritesString troublesomeText troublesome ∧
      (ofSource troublesomeText).items = [.ok ⟨.string, troublesomeText, ⟨0, 19⟩⟩] ∧
      stringValue troublesomeText = troublesome ∧
      .ok unknownEscape ∈ (ofSource "x = \"\\€\\\\\";").items ∧
      strictValue? unknownEscape.text = some "\\€\\" := by
  have hwrites : WritesString troublesomeText troublesome := by
    refine ⟨[['\\', '"'], ['a'], ['\\', '\\'], ['\\', 'n'], ['\r'], ['\\', 't'], ['\\', '0'],
      ['€'], ['\\', '\\']], ?_, rfl⟩
    exact .cons .quote <| .cons (.plain (by decide) (by decide) (by decide)) <|
      .cons .backslash <| .cons .newline <| .cons (.plain (by decide) (by decide) (by decide)) <|
      .cons .tab <| .cons .nul <| .cons (.plain (by decide) (by decide) (by decide)) <|
      .cons .backslash .nil
  have hitem : .ok unknownEscape ∈ (ofSource "x = \"\\€\\\\\";").items := by decide +kernel
  have hvalue : stringValue unknownEscape.text = "\\€\\" := by decide +kernel
  obtain ⟨-, hwritten, hread⟩ := literals_exact
  obtain ⟨hitems, hstring⟩ := hwritten _ _ hwrites
  have hstrict := hread _ _ hitem rfl
  rw [hvalue] at hstrict
  exact ⟨hwrites, hitems, hstring, hitem, hstrict⟩

end Literal

end Clausal
