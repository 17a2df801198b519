import Clausal.Report.Diagnostic
import Clausal.Text.Bytes
import Clausal.Token.Lexeme

/-!
The stream of tokens of a source. Blanks are dropped, comments are kept, and a piece that no rule
accepts becomes an error, after which the stream goes on. A stream is a value: a copy of it goes
on from the same place.
-/

namespace Clausal

structure LexError where
  cause : LexError.Cause
  span : Span
  deriving DecidableEq

namespace LexError

def code (e : LexError) : Report.Code :=
  match e.cause with
  | .unexpectedCharacter _ => .unexpectedCharacter
  | .unterminatedString => .unterminatedString
  | .malformedNumber => .malformedNumber

def message (e : LexError) : String :=
  match e.cause with
  | .unexpectedCharacter c => "unexpected character " ++ Text.quotedCharacter c
  | .unterminatedString => "unterminated string literal"
  | .malformedNumber => "malformed number literal"

def diagnostic (e : LexError) : Report.Diagnostic :=
  let pointing (label : String) : Option Report.Label := some ⟨e.span, label⟩
  match e.cause with
  | .unexpectedCharacter _ => ⟨e.code, e.message, pointing "not valid here", [], []⟩
  | .unterminatedString =>
    ⟨e.code, e.message, pointing "string starts here", ["string literals cannot span lines"], []⟩
  | .malformedNumber =>
    ⟨e.code, e.message, pointing "not a number", [], ["identifiers cannot start with a digit"]⟩

end LexError

abbrev Token.Item := Except LexError Token

structure TokenStream where
  source : String
  /-- The bytes already read. -/
  offset : Nat
  rest : List Char

namespace TokenStream

open Text

def ofSource (source : String) : TokenStream := ⟨source, 0, source.toList⟩

def restart (s : TokenStream) : TokenStream := ofSource s.source

/-- The item made of the lexeme that starts with `c` at a byte offset. -/
def itemAt (offset : Nat) (c : Char) (cs : List Char) : Token.Item :=
  let reading := Lexeme.read c cs
  let lexeme := c :: cs.take reading.more
  let span := Span.ofRange offset (offset + byteLength lexeme)
  match reading.verdict with
  | .ok kind => .ok ⟨kind, String.ofList lexeme, span⟩
  | .error cause => .error ⟨cause, span⟩

/-- The first item of a text that starts at a byte offset, and the offset and the text after it. -/
def read? (offset : Nat) (cs : List Char) : Option (Token.Item × Nat × List Char) :=
  let start := offset + byteLength (cs.takeWhile isBlank)
  match dropBlank cs with
  | [] => none
  | c :: cs =>
    let more := (Lexeme.read c cs).more
    some (itemAt start c cs, start + byteLength (c :: cs.take more), cs.drop more)

theorem length_of_read? {offset offset' : Nat} {cs cs' : List Char} {item : Token.Item}
    (h : read? offset cs = some (item, offset', cs')) : cs'.length < cs.length := by
  have hle : (dropBlank cs).length ≤ cs.length := (List.dropWhile_sublist _).length_le
  unfold read? at h
  split at h
  · contradiction
  · next c ds hd =>
    simp only [Option.some.injEq, Prod.mk.injEq] at h
    rw [← h.2.2, List.length_drop]
    rw [hd, List.length_cons] at hle
    omega

/-- All items of a text that starts at a byte offset. -/
def itemsFrom (offset : Nat) (cs : List Char) : List Token.Item :=
  match _h : read? offset cs with
  | none => []
  | some (item, offset', cs') => item :: itemsFrom offset' cs'
termination_by cs.length
decreasing_by exact length_of_read? _h

def next? (s : TokenStream) : Option (Token.Item × TokenStream) :=
  (read? s.offset s.rest).map fun (item, offset, rest) => (item, ⟨s.source, offset, rest⟩)

def items (s : TokenStream) : List Token.Item := itemsFrom s.offset s.rest

end TokenStream

end Clausal
