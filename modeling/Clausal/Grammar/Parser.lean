import Clausal.Grammar.Cursor

/-!
Readers of constructs. A reader takes a cursor and answers with what it read and the cursor after
it, or with an error. Repetition and nesting are bounded by a number of rounds; a reader that runs
out of rounds starves, which is kept apart from the errors of the input.
-/

namespace Clausal

inductive Reply (α : Type) where
  | ok (value : α) (rest : Cursor)
  | error (e : ParseError)
  | starved

def Parser (α : Type) : Type := Cursor → Reply α

namespace Reply

@[inline] def bind {α β : Type} (r : Reply α) (next : α → Parser β) : Reply β :=
  match r with
  | ok value rest => next value rest
  | error e => error e
  | starved => starved

@[inline] def mapError {α : Type} (f : ParseError → ParseError) : Reply α → Reply α
  | error e => error (f e)
  | r => r

/-- The answer of a cursor operation; after an error nothing goes on from the cursor. -/
@[inline] def ofStep {α : Type} : Except ParseError α × Cursor → Reply α
  | (.ok value, rest) => ok value rest
  | (.error e, _) => error e

end Reply

namespace Parser

@[always_inline] instance : Monad Parser where
  pure value := fun c => .ok value c
  bind p next := fun c => (p c).bind next

theorem pure_apply {α : Type} (value : α) (c : Cursor) :
    (pure value : Parser α) c = .ok value c := rfl

theorem bind_apply {α β : Type} (p : Parser α) (next : α → Parser β) (c : Cursor) :
    (p >>= next) c = (p c).bind next := rfl

def starve {α : Type} : Parser α := fun _ => .starved

def fail {α : Type} (e : ParseError) : Parser α := fun _ => .error e

/-- Something that the cursor shows, without a step. -/
@[inline] def look {α : Type} (f : Cursor → α) : Parser α := fun c => .ok (f c) c

@[inline] def check (kind : Token.Kind) : Parser Bool := look fun c => c.check kind

@[inline] def checkText (kind : Token.Kind) (text : String) : Parser Bool :=
  look fun c => c.checkText kind text

def consume : Parser Token := fun c => .ofStep c.consume

def eat (kind : Token.Kind) : Parser Bool := fun c => .ofStep (c.eat kind)

def expect (kind : Token.Kind) : Parser Token := fun c => .ofStep (c.expect kind)

def expectText (kind : Token.Kind) (text : String) : Parser Token :=
  fun c => .ofStep (c.expectText kind text)

/-- Reads a construct, which the errors inside it then name. -/
@[inline] def within {α : Type} (context : ParseError.Context) (p : Parser α) : Parser α :=
  fun c => (p c).mapError (·.within context)

/-- One or more readings with a comma between them. -/
def commaSeparated {α : Type} (p : Parser α) : Nat → Parser (List α)
  | 0 => starve
  | rounds + 1 => do
    let value ← p
    if ← eat .comma then
      let values ← commaSeparated p rounds
      return value :: values
    else
      return [value]

/-- Readings with a comma between them, up to a closing parenthesis that is left in place. -/
def commaSeparatedOrNone {α : Type} (p : Parser α) (rounds : Nat) : Parser (List α) := do
  if ← check .rightParen then return []
  else commaSeparated p rounds

end Parser

end Clausal
