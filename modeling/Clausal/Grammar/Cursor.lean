import Clausal.Grammar.Failure

/-!
A place in a stream of items with one token of lookahead. The item after the current token is
read only when that token is consumed, so an error in the stream is met by the step that would
make it the current item. Such a step fails with the current token still in place and the bad item
gone.
-/

namespace Clausal

structure Cursor where
  /-- The token that is read next; none at the end of the input. -/
  current : Option Token
  /-- The span of the token consumed last. -/
  previous : Span
  /-- The items after the current token. -/
  pending : List Token.Item
  /-- The offset of the end of the source. -/
  endOffset : Nat

namespace Cursor

def ofItems (items : List Token.Item) (endOffset : Nat) : Except ParseError Cursor :=
  match items with
  | [] => .ok ⟨none, .point 0, [], endOffset⟩
  | .ok t :: items => .ok ⟨some t, .point 0, items, endOffset⟩
  | .error e :: _ => .error (.ofLexError e)

def ofStream (s : TokenStream) : Except ParseError Cursor :=
  ofItems s.items (clampOffset s.source.utf8ByteSize)

def ofSource (source : String) : Except ParseError Cursor := ofStream (.ofSource source)

def atEnd (c : Cursor) : Bool := c.current.isNone

/-- The span of the current token, or the end of the source. -/
def currentSpan (c : Cursor) : Span :=
  match c.current with
  | some t => t.span
  | none => .point c.endOffset

def check (c : Cursor) (kind : Token.Kind) : Bool := c.current.any fun t => t.kind == kind

def checkAny (c : Cursor) (kinds : List Token.Kind) : Bool :=
  c.current.any fun t => kinds.contains t.kind

def checkText (c : Cursor) (kind : Token.Kind) (text : String) : Bool :=
  c.current.any fun t => t.is kind text

def mismatch (c : Cursor) (kind : Token.Kind) (spelling : Option String) : ParseError :=
  match c.current with
  | some t => ⟨.expectedToken kind spelling t.kind t.text, t.span, none⟩
  | none =>
    let expected := match spelling with
      | some s => ParseError.Expectation.spelling s
      | none => .kind kind
    ⟨.unexpectedEnd expected, c.currentSpan, none⟩

def consume (c : Cursor) : Except ParseError Token × Cursor :=
  match c.current with
  | none => (.error ⟨.unexpectedEnd .token, c.currentSpan, none⟩, c)
  | some t =>
    match c.pending with
    | [] => (.ok t, { c with current := none, previous := t.span })
    | .ok t' :: items =>
      (.ok t, { c with current := some t', previous := t.span, pending := items })
    | .error e :: items => (.error (.ofLexError e), { c with previous := t.span, pending := items })

/-- Steps over the current token if it has the kind, and tells whether it had. -/
def eat (c : Cursor) (kind : Token.Kind) : Except ParseError Bool × Cursor :=
  if c.check kind then
    match c.consume with
    | (.ok _, c') => (.ok true, c')
    | (.error e, c') => (.error e, c')
  else (.ok false, c)

def expect (c : Cursor) (kind : Token.Kind) : Except ParseError Token × Cursor :=
  if c.check kind then c.consume else (.error (c.mismatch kind none), c)

def expectText (c : Cursor) (kind : Token.Kind) (text : String) :
    Except ParseError Token × Cursor :=
  if c.checkText kind text then c.consume else (.error (c.mismatch kind (some text)), c)

end Cursor

end Clausal
