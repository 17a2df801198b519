import Clausal.Text.Blank
import Clausal.Token

/-!
Lexemes: the longest piece at the front of a text that one lexical rule accepts. The rules are
told apart by the first character, so for a text that starts with a character that is not blank
it is enough to say how many of the following characters the lexeme takes as well, and whether
the piece is a token or an error. Two rules describe errors only: a string that is not closed on
its line, and a number that runs into a word.
-/

namespace Clausal

inductive LexError.Cause
  | unexpectedCharacter (c : Char)
  | unterminatedString
  | malformedNumber
  deriving DecidableEq

namespace Lexeme

def isDigit (c : Char) : Bool := '0' ≤ c && c ≤ '9'

def isWordStart (c : Char) : Bool := ('A' ≤ c && c ≤ 'Z') || ('a' ≤ c && c ≤ 'z') || c == '_'

def isWordChar (c : Char) : Bool := isWordStart c || isDigit c

/-- How many characters the lexeme takes after its first one, and what it is. -/
structure Reading where
  verdict : Except LexError.Cause Token.Kind
  more : Nat

def token (kind : Token.Kind) (more : Nat) : Reading := ⟨.ok kind, more⟩

def mistake (cause : LexError.Cause) (more : Nat) : Reading := ⟨.error cause, more⟩

def runLength (p : Char → Bool) (cs : List Char) : Nat := (cs.takeWhile p).length

/-- The words that are not identifiers. -/
def wordKind (word : List Char) : Token.Kind :=
  if word = "match".toList ∨ word = "when".toList ∨ word = "otherwise".toList then .keyword
  else if word = "number".toList ∨ word = "string".toList ∨ word = "bool".toList then .typeName
  else if word = "true".toList ∨ word = "false".toList then .boolean
  else .identifier

/-- A letter or an underscore, and the letters, digits and underscores after it. -/
def word (first : Char) (cs : List Char) : Reading :=
  let n := runLength isWordChar cs
  token (wordKind (first :: cs.take n)) n

/-- The length of the rest of a number after its first digit: digits, and a fraction only when a
digit follows the point. -/
def numberLength (cs : List Char) : Nat :=
  let whole := runLength isDigit cs
  match cs.drop whole with
  | '.' :: fraction =>
    let places := runLength isDigit fraction
    if places = 0 then whole else whole + 1 + places
  | _ => whole

def number (cs : List Char) : Reading :=
  let n := numberLength cs
  match cs.drop n with
  | c :: rest =>
    if isWordStart c then mistake .malformedNumber (n + 1 + runLength isWordChar rest)
    else token .number n
  | [] => token .number n

/-- The length of a string after its opening quote, and whether it is closed. A backslash takes
the character after it along; no string goes past the end of its line. -/
def stringLength : List Char → Nat × Bool
  | [] => (0, false)
  | '"' :: _ => (1, true)
  | '\n' :: _ => (0, false)
  | ['\\'] => (0, false)
  | '\\' :: c :: cs =>
    if c = '\n' then (0, false)
    else
      let (n, closed) := stringLength cs
      (n + 2, closed)
  | _ :: cs =>
    let (n, closed) := stringLength cs
    (n + 1, closed)

def string (cs : List Char) : Reading :=
  let (n, closed) := stringLength cs
  if closed then token .string n else mistake .unterminatedString n

/-- A slash is an operator, and two open a comment that runs to the end of the line. -/
def slash : List Char → Reading
  | '/' :: cs => token .comment (1 + runLength (· != '\n') cs)
  | _ => token .arithOp 0

def pair (second : Char) (together : Token.Kind) (alone : Reading) : List Char → Reading
  | c :: _ => if c = second then token together 1 else alone
  | [] => alone

def single? : Char → Option Token.Kind
  | '!' => some .logicOp
  | '+' => some .arithOp
  | '*' => some .arithOp
  | '(' => some .leftParen
  | ')' => some .rightParen
  | '[' => some .leftBracket
  | ']' => some .rightBracket
  | '\x7b' => some .leftBrace
  | '\x7d' => some .rightBrace
  | ',' => some .comma
  | ';' => some .semicolon
  | _ => none

def symbol (c : Char) (cs : List Char) : Reading :=
  let unexpected := mistake (.unexpectedCharacter c) 0
  match c with
  | '-' => pair '>' .arrow (token .arithOp 0) cs
  | '<' => pair '=' .compareOp (token .compareOp 0) cs
  | '>' => pair '=' .compareOp (token .compareOp 0) cs
  | '=' => pair '=' .compareOp (token .assign 0) cs
  | '&' => pair '&' .logicOp unexpected cs
  | '|' => pair '|' .logicOp unexpected cs
  | '/' => slash cs
  | _ => match single? c with
    | some kind => token kind 0
    | none => unexpected

/-- The lexeme that starts with a character that is not blank. -/
def read (c : Char) (cs : List Char) : Reading :=
  if isWordStart c then word c cs
  else if isDigit c then number cs
  else if c = '"' then string cs
  else symbol c cs

end Lexeme

end Clausal
