import Clausal.Evaluation.Interpreter
import Clausal.Grammar.Program

/-!
From source text to a value. Each stage has errors of its own; an error of the lexer that the
parser meets is reported as an error of the lexer.
-/

namespace Clausal

inductive Failure
  | lexical (e : LexError)
  | grammatical (e : ParseError)
  | runtime (e : EvalError)

namespace Failure

def ofParseError (e : ParseError) : Failure :=
  match e.cause with
  | .lexical error => lexical error
  | _ => grammatical e

theorem ofParseError_of_lexical {e : ParseError} {x : LexError} (h : e.cause = .lexical x) :
    ofParseError e = lexical x := by
  rw [ofParseError, h]

theorem ofParseError_of_stated {e : ParseError} (h : ∀ x, e.cause ≠ .lexical x) :
    ofParseError e = grammatical e := by
  unfold ofParseError
  split
  · next x hx => exact absurd hx (h x)
  · rfl

def diagnostic : Failure → Report.Diagnostic
  | lexical e => e.diagnostic
  | grammatical e => e.diagnostic
  | runtime e => e.diagnostic

def message : Failure → String
  | lexical e => e.message
  | grammatical e => e.message
  | runtime e => e.message

/-- Whether the bindings made so far have to be given up. -/
def isFatal : Failure → Bool
  | runtime e => e.isFatal
  | _ => false

end Failure

/-- The tokens of a source without errors, or its first error. -/
def Token.all? : List Token.Item → Except LexError (List Token)
  | [] => .ok []
  | .error e :: _ => .error e
  | .ok t :: items => (Token.all? items).map (t :: ·)

theorem Token.all?_map_ok (ts : List Token) : Token.all? (ts.map .ok) = .ok ts := by
  induction ts with
  | nil => rfl
  | cons t ts ih =>
      rw [List.map_cons, Token.all?, ih]
      rfl

theorem Token.all?_append_error (ts : List Token) (x : LexError) (later : List Token.Item) :
    Token.all? (ts.map .ok ++ .error x :: later) = .error x := by
  induction ts with
  | nil => rfl
  | cons t ts ih =>
      rw [List.map_cons, List.cons_append, Token.all?, ih]
      rfl

/-- Items are tokens throughout, or there is a first error among them. -/
theorem Token.Item.cases_first (items : List Token.Item) :
    (∃ ts : List Token, items = ts.map .ok) ∨
      ∃ (ts : List Token) (x : LexError) (later : List Token.Item),
        items = ts.map .ok ++ .error x :: later := by
  induction items with
  | nil => exact .inl ⟨[], rfl⟩
  | cons item items ih =>
      cases item with
      | error x => exact .inr ⟨[], x, items, rfl⟩
      | ok t =>
          rcases ih with ⟨ts, rfl⟩ | ⟨ts, x, later, rfl⟩
          · exact .inl ⟨t :: ts, rfl⟩
          · exact .inr ⟨t :: ts, x, later, rfl⟩

def lexSource (source : String) : Except Failure (List Token) :=
  (Token.all? (TokenStream.ofSource source).items).mapError .lexical

def parseSource (source : String) : Except Failure Program :=
  (Program.parse source).mapError .ofParseError

theorem parseSource_cases (source : String) :
    (∃ p, parseSource source = .ok p ∧ Program.parse source = .ok p) ∨
      ∃ e, parseSource source = .error (.ofParseError e) ∧ Program.parse source = .error e := by
  rw [parseSource]
  cases Program.parse source with
  | ok p => exact .inl ⟨p, rfl, rfl⟩
  | error e => exact .inr ⟨e, rfl, rfl⟩

theorem parse_of_parseSource {source : String} {p : Program} (h : parseSource source = .ok p) :
    Program.parse source = .ok p := by
  rcases parseSource_cases source with ⟨q, hq, hprogram⟩ | ⟨error, hq, -⟩
  · cases hq.symm.trans h
    exact hprogram
  · cases hq.symm.trans h

def runSource (source : String) (limit : Option Nat) : Except Failure Value := do
  let program ← parseSource source
  ((Interpreter.new limit).runProgram program).1.mapError .runtime

end Clausal
