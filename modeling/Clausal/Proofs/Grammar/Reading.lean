import Clausal.Grammar.Program

/-!
Reading a word. A reader reads a word if, from a cursor on the word and any tokens after it, it
answers with its value and the cursor on those tokens. The statements here say how reading a word
is put together from reading its parts; what follows the word matters, because a reader looks one
token ahead.
-/

namespace Clausal

namespace Token

/-- The span of the token read last, after a word was read. -/
def lastSpan (previous : Span) (w : List Token) : Span := w.foldl (fun _ t => t.span) previous

@[simp] theorem lastSpan_nil (previous : Span) : lastSpan previous [] = previous := rfl

@[simp] theorem lastSpan_cons (previous : Span) (t : Token) (w : List Token) :
    lastSpan previous (t :: w) = lastSpan t.span w := rfl

@[simp] theorem lastSpan_append (previous : Span) (u v : List Token) :
    lastSpan previous (u ++ v) = lastSpan (lastSpan previous u) v := List.foldl_append

def headKind (w : List Token) (kind : Kind) : Bool := w.head?.any (·.kind == kind)

def headIs (w : List Token) (kind : Kind) (text : String) : Bool := w.head?.any (·.is kind text)

@[simp] theorem headKind_cons (t : Token) (w : List Token) (kind : Kind) :
    headKind (t :: w) kind = (t.kind == kind) := rfl

@[simp] theorem headKind_nil (kind : Kind) : headKind [] kind = false := rfl

@[simp] theorem headIs_cons (t : Token) (w : List Token) (kind : Kind) (text : String) :
    headIs (t :: w) kind text = t.is kind text := rfl

@[simp] theorem headIs_nil (kind : Kind) (text : String) : headIs [] kind text = false := rfl

/-- A token that is a given word is of the kind of the word. -/
theorem kind_of_is {t : Token} {kind : Kind} {text : String} (h : t.is kind text = true) :
    t.kind = kind := by
  simp only [is, Bool.and_eq_true, beq_iff_eq] at h
  exact h.1

/-- A token of another kind is not the word. -/
theorem not_is_of_kind {t : Token} {kind : Kind} (text : String) (h : t.kind ≠ kind) :
    t.is kind text = false := by
  simp [is, h]

end Token

namespace Cursor

/-- The cursor on the first of some tokens that no error follows. -/
def on (previous : Span) (endOffset : Nat) : List Token → Cursor
  | [] => ⟨none, previous, [], endOffset⟩
  | t :: ts => ⟨some t, previous, ts.map .ok, endOffset⟩

variable (previous : Span) (endOffset : Nat) (t : Token) (ts : List Token)

/-- The cursor starts on the first of the tokens, at the start of the source. -/
theorem ofItems_map_ok :
    ofItems (ts.map .ok) endOffset = .ok (on (.point 0) endOffset ts) := by
  cases ts <;> rfl

@[simp] theorem current_on : (on previous endOffset ts).current = ts.head? := by
  cases ts <;> rfl

@[simp] theorem previous_on : (on previous endOffset ts).previous = previous := by
  cases ts <;> rfl

@[simp] theorem check_on (kind : Token.Kind) :
    (on previous endOffset ts).check kind = Token.headKind ts kind := by
  cases ts <;> rfl

@[simp] theorem checkText_on (kind : Token.Kind) (text : String) :
    (on previous endOffset ts).checkText kind text = Token.headIs ts kind text := by
  cases ts <;> rfl

@[simp] theorem currentSpan_on_cons :
    (on previous endOffset (t :: ts)).currentSpan = t.span := rfl

@[simp] theorem consume_on_cons :
    (on previous endOffset (t :: ts)).consume = (.ok t, on t.span endOffset ts) := by
  cases ts <;> rfl

end Cursor

namespace Parser

open Token (lastSpan headKind headIs)

variable {α β : Type} {p : Parser α} {f : α → Parser β} {u v w rest : List Token} {a : α} {b : β}
  {kind : Token.Kind} {text : String} {t : Token}

/-- The reader reads the word with this value where the other tokens follow. -/
def Reads (p : Parser α) (w rest : List Token) (a : α) : Prop :=
  ∀ previous endOffset,
    p (.on previous endOffset (w ++ rest)) = .ok a (.on (lastSpan previous w) endOffset rest)

namespace Reads

theorem pure (a : α) (rest : List Token) : Reads (pure a) [] rest a := fun _ _ => rfl

/-- Two readers that read words one after the other read the two words together. -/
theorem bind (hp : Reads p u (v ++ rest) a) (hf : Reads (f a) v rest b) :
    Reads (p >>= f) (u ++ v) rest b := by
  intro previous endOffset
  rw [bind_apply, List.append_assoc, hp, Token.lastSpan_append]
  exact hf _ _

/-- A reader that takes one token, and what is read after it. -/
theorem cons (hp : Reads p [t] (v ++ rest) a) (hf : Reads (f a) v rest b) :
    Reads (p >>= f) (t :: v) rest b :=
  bind (u := [t]) hp hf

/-- A reader, and one that takes nothing more. -/
theorem andNothing (hp : Reads p w rest a) (hf : Reads (f a) [] rest b) :
    Reads (p >>= f) w rest b := by
  intro previous endOffset
  rw [bind_apply, hp]
  exact hf _ _

/-- What is made of a value in the end does not change what is read. -/
theorem map (h : Reads p w rest a) (g : α → β) :
    Reads (p >>= fun x => Pure.pure (g x)) w rest (g a) :=
  h.andNothing (pure _ _)

/-- Naming the construct of an error changes nothing where there is no error. -/
theorem within {context : ParseError.Context} (h : Reads p w rest a) :
    Reads (within context p) w rest a := by
  intro previous endOffset
  simp only [Parser.within, h previous endOffset]
  rfl

/-- A look takes no token; what is read depends on what is seen at the start of the word. -/
theorem look {g : Cursor → α} (hg : ∀ previous endOffset,
    g (.on previous endOffset (w ++ rest)) = a) (hf : Reads (f a) w rest b) :
    Reads (look g >>= f) w rest b := by
  intro previous endOffset
  rw [bind_apply, Parser.look, hg]
  exact hf _ _

theorem check {f : Bool → Parser β} (hf : Reads (f (headKind (w ++ rest) kind)) w rest b) :
    Reads (check kind >>= f) w rest b :=
  look (fun _ _ => Cursor.check_on ..) hf

theorem checkText {f : Bool → Parser β} (hf : Reads (f (headIs (w ++ rest) kind text)) w rest b) :
    Reads (checkText kind text >>= f) w rest b :=
  look (fun _ _ => Cursor.checkText_on ..) hf

end Reads

theorem reads_consume (t : Token) (rest : List Token) : Reads consume [t] rest t := by
  intro previous endOffset
  simp [consume, Reply.ofStep]

theorem reads_expect (ht : t.kind = kind) (rest : List Token) :
    Reads (expect kind) [t] rest t := by
  intro previous endOffset
  simp [expect, Cursor.expect, Reply.ofStep, ht]

theorem reads_expectText (ht : t.is kind text = true) (rest : List Token) :
    Reads (expectText kind text) [t] rest t := by
  intro previous endOffset
  simp [expectText, Cursor.expectText, Reply.ofStep, ht]

theorem reads_eat (ht : t.kind = kind) (rest : List Token) : Reads (eat kind) [t] rest true := by
  intro previous endOffset
  simp [eat, Cursor.eat, Reply.ofStep, ht]

/-- A token that is not there is not eaten, and nothing else is. -/
theorem reads_eat_nothing (h : headKind rest kind = false) :
    Reads (eat kind) [] rest false := by
  intro previous endOffset
  simp [eat, Cursor.eat, Reply.ofStep, h]

theorem reads_ident (ht : t.kind = .identifier) (rest : List Token) :
    Reads ident [t] rest ⟨t.text, t.span⟩ :=
  (reads_expect ht rest).map fun t => Ident.mk t.text t.span

theorem reads_typeName (ht : t.kind = .typeName ∨ t.kind = .identifier) (rest : List Token) :
    Reads typeName [t] rest t.text := by
  refine Reads.look (a := true) (fun _ _ => ?_) ((reads_consume t rest).map Token.text)
  rcases ht with ht | ht <;> simp [Cursor.checkAny, ht]

/-- One value, after which no comma follows. -/
theorem reads_commaSeparated_last (h : Reads p w rest a) (hrest : headKind rest .comma = false)
    (rounds : Nat) : Reads (commaSeparated p (rounds + 1)) w rest [a] := by
  refine h.andNothing ?_
  exact (reads_eat_nothing hrest).andNothing (Reads.pure [a] rest)

/-- A reading, a comma, and the rest of the list. -/
theorem reads_commaSeparated_next {values : List α} {rounds : Nat} {comma : Token}
    (hm : comma.kind = .comma) (h : Reads p u (comma :: (v ++ rest)) a)
    (hs : Reads (commaSeparated p rounds) v rest values) :
    Reads (commaSeparated p (rounds + 1)) (u ++ comma :: v) rest (a :: values) :=
  h.bind ((reads_eat hm _).cons (hs.map (a :: ·)))

/-- Where the closing parenthesis is next, there is nothing in the list. -/
theorem reads_commaSeparatedOrNone_nothing (h : headKind rest .rightParen = true)
    (rounds : Nat) : Reads (commaSeparatedOrNone p rounds) [] rest [] := by
  refine Reads.check ?_
  rw [List.nil_append, h, if_pos rfl]
  exact Reads.pure _ _

theorem reads_commaSeparatedOrNone {values : List α} {rounds : Nat}
    (hw : headKind (w ++ rest) .rightParen = false)
    (h : Reads (commaSeparated p rounds) w rest values) :
    Reads (commaSeparatedOrNone p rounds) w rest values := by
  refine Reads.check ?_
  rw [hw, if_neg Bool.false_ne_true]
  exact h

end Parser

end Clausal
