import Clausal.Proofs.Token.Spelling
import Clausal.Tree.Printer

/-!
From pieces to tokens. Pieces are parted if each lexeme stands as it is before the text of the
pieces after it. Parted pieces are read back as the lexemes among them, in their order, and only
the spans of the tokens are new.
-/

namespace Clausal

namespace Token

/-- A token without its span. -/
abbrev Shape : Type := Kind × String

def shape (t : Token) : Shape := (t.kind, t.text)

/-- Tokens whose shapes start with a given one start with a token of that kind and text. -/
theorem map_shape_eq_cons {ts : List Token} {kind : Kind} {text : String} {ls : List Shape}
    (h : ts.map shape = (kind, text) :: ls) :
    ∃ t us, ts = t :: us ∧ t.kind = kind ∧ t.text = text ∧ us.map shape = ls := by
  obtain ⟨t, us, rfl, ht, hus⟩ := List.map_eq_cons_iff.mp h
  exact ⟨t, us, rfl, congrArg Prod.fst ht, congrArg Prod.snd ht, hus⟩

end Token

namespace Piece

def chars (ps : List Piece) : List Char := ps.flatMap (·.text.toList)

@[simp] theorem chars_nil : chars [] = [] := rfl

@[simp] theorem chars_cons (p : Piece) (ps : List Piece) :
    chars (p :: ps) = p.text.toList ++ chars ps := rfl

/-- What is printed is the characters of the pieces in their order. -/
theorem toList_render (ps : List Piece) : (render ps).toList = chars ps := by
  have hfold (s : String) :
      (ps.foldl (fun s p => s ++ p.text) s).toList = s.toList ++ chars ps := by
    induction ps generalizing s with
    | nil => simp
    | cons p ps ih => rw [List.foldl_cons, ih, chars_cons, String.toList_append, List.append_assoc]
  exact hfold ""

def shape? : Piece → Option Token.Shape
  | lexeme kind text => some (kind, text)
  | space | newline => none

def lexemes (ps : List Piece) : List Token.Shape := ps.filterMap shape?

@[simp] theorem lexemes_nil : lexemes [] = [] := rfl

@[simp] theorem lexemes_lexeme (kind : Token.Kind) (text : String) (ps : List Piece) :
    lexemes (lexeme kind text :: ps) = (kind, text) :: lexemes ps := rfl

@[simp] theorem lexemes_space (ps : List Piece) : lexemes (space :: ps) = lexemes ps := rfl

@[simp] theorem lexemes_newline (ps : List Piece) : lexemes (newline :: ps) = lexemes ps := rfl

@[simp] theorem lexemes_append (ps qs : List Piece) :
    lexemes (ps ++ qs) = lexemes ps ++ lexemes qs := List.filterMap_append

/-- Each lexeme keeps apart from what is written after it. -/
def Parted : List Piece → Prop
  | [] => True
  | lexeme kind text :: ps => Lexeme.Stands kind text.toList (chars ps) ∧ Parted ps
  | space :: ps | newline :: ps => Parted ps

/-- Where each piece is set apart from the next, the lexer reads back the lexemes that were
printed. -/
theorem Parted.items {ps : List Piece} (h : Parted ps) (offset : Nat) :
    ∃ ts : List Token,
      TokenStream.itemsFrom offset (chars ps) = ts.map .ok ∧ ts.map Token.shape = lexemes ps := by
  induction ps generalizing offset with
  | nil => exact ⟨[], TokenStream.itemsFrom_nil offset, rfl⟩
  | cons p ps ih =>
      cases p with
      | lexeme kind text =>
          obtain ⟨hstands, hps⟩ := h
          obtain ⟨ts, hitems, hshapes⟩ := ih hps (offset + Text.byteLength text.toList)
          have hread := TokenStream.itemsFrom_of_stands hstands offset
          rw [hitems, String.ofList_toList] at hread
          exact ⟨_ :: ts, hread, congrArg _ hshapes⟩
      | space =>
          obtain ⟨ts, hitems, hshapes⟩ := ih h (offset + ' '.utf8Size)
          exact ⟨ts, (TokenStream.itemsFrom_of_blank rfl offset _).trans hitems, hshapes⟩
      | newline =>
          obtain ⟨ts, hitems, hshapes⟩ := ih h (offset + '\n'.utf8Size)
          exact ⟨ts, (TokenStream.itemsFrom_of_blank rfl offset _).trans hitems, hshapes⟩

/-- Characters after which no word and no number goes on. -/
def Delimited (ps : List Piece) : Prop :=
  ∀ c ∈ (chars ps).head?, Lexeme.isWordChar c = false ∧ c ≠ '.'

/-- Characters that go on with no operator. -/
def Opening (ps : List Piece) : Prop := ∀ c ∈ (chars ps).head?, c ∉ ['=', '>', '/']

/-- The kinds with which an expression or a declaration may start or end, operators and
parentheses apart. -/
def isPlain (kind : Token.Kind) : Bool :=
  Lexeme.isWordKind kind || kind = .number || kind = .string

section Parted

variable {kind : Token.Kind} {text : String} {ps : List Piece}

@[simp] theorem parted_nil : Parted [] := trivial

@[simp] theorem parted_space : Parted (space :: ps) ↔ Parted ps := Iff.rfl

@[simp] theorem parted_newline : Parted (newline :: ps) ↔ Parted ps := Iff.rfl

/-- A mark that stands whatever follows it never runs into the next piece. -/
theorem parted_mark (h : ∀ rest, Lexeme.Stands kind text.toList rest) :
    Parted (lexeme kind text :: ps) ↔ Parted ps := and_iff_right (h _)

@[simp] theorem parted_leftParen : Parted (leftParen :: ps) ↔ Parted ps :=
  parted_mark fun _ => ⟨_, _, rfl, rfl, rfl⟩

@[simp] theorem parted_rightParen : Parted (rightParen :: ps) ↔ Parted ps :=
  parted_mark fun _ => ⟨_, _, rfl, rfl, rfl⟩

@[simp] theorem parted_leftBrace : Parted (leftBrace :: ps) ↔ Parted ps :=
  parted_mark fun _ => ⟨_, _, rfl, rfl, rfl⟩

@[simp] theorem parted_rightBrace : Parted (rightBrace :: ps) ↔ Parted ps :=
  parted_mark fun _ => ⟨_, _, rfl, rfl, rfl⟩

@[simp] theorem parted_comma : Parted (comma :: ps) ↔ Parted ps :=
  parted_mark fun _ => ⟨_, _, rfl, rfl, rfl⟩

@[simp] theorem parted_semicolon : Parted (semicolon :: ps) ↔ Parted ps :=
  parted_mark fun _ => ⟨_, _, rfl, rfl, rfl⟩

@[simp] theorem parted_arrow : Parted (arrow :: ps) ↔ Parted ps :=
  parted_mark fun _ => ⟨_, _, rfl, rfl, rfl⟩

/-- A lexeme may be followed by anything that the lexer does not join to it. -/
theorem parted_lexeme (h : Token.Spelled kind text) (hsep : Lexeme.Separates kind (chars ps))
    (hps : Parted ps) : Parted (lexeme kind text :: ps) :=
  ⟨(Token.spelled_iff.mp h).follow hsep, hps⟩

/-- A space sets any lexeme but a comment apart from what follows. -/
theorem parted_spaced (h : Token.Spelled kind text) (hkind : kind ≠ .comment)
    (hps : Parted ps) : Parted (lexeme kind text :: space :: ps) := by
  apply parted_lexeme h _ (parted_space.mpr hps)
  intro c hc
  obtain rfl : ' ' = c := Option.some.inj hc
  refine ⟨fun _ => rfl, fun _ => by decide, fun hcomment => ?_, fun _ => by decide⟩
  exact absurd hcomment hkind

/-- A comment takes in all up to the line end, so a line end has to follow it. -/
theorem parted_comment (h : Token.Spelled .comment text) (hps : Parted ps) :
    Parted (lexeme .comment text :: newline :: ps) := by
  apply parted_lexeme h _ (parted_newline.mpr hps)
  intro c hc
  obtain rfl : '\n' = c := Option.some.inj hc
  exact ⟨fun _ => rfl, fun _ => by decide, fun _ => rfl, fun _ => by decide⟩

/-- A word or a number is set apart by any piece that neither goes on with it nor is a point. -/
theorem parted_plain (h : Token.Spelled kind text) (hkind : isPlain kind = true)
    (hps : Parted ps) (hdelimited : Delimited ps) : Parted (lexeme kind text :: ps) := by
  apply parted_lexeme h _ hps
  intro c hc
  refine ⟨fun _ => (hdelimited c hc).1, fun _ => (hdelimited c hc).2, ?_, ?_⟩
  · rintro rfl
    contradiction
  · rintro (rfl | rfl | rfl) <;> contradiction

/-- A lexeme that starts with none of the marks that join to one before it may stand anywhere. -/
theorem opening_plain (h : Token.Spelled kind text) (hkind : isPlain kind = true) :
    Opening (lexeme kind text :: ps) := by
  obtain ⟨c, cs, htext, -, hread⟩ := Token.spelled_iff.mp h
  intro c' hc'
  obtain rfl : c = c' := by simpa [Piece.text, htext] using hc'
  intro hmem
  simp only [List.mem_cons, List.not_mem_nil, or_false] at hmem
  rcases hmem with rfl | rfl | rfl
  · rcases Lexeme.pair_kind hread with rfl | hverdict
    · contradiction
    · cases hverdict
      contradiction
  · rcases Lexeme.pair_kind hread with rfl | hverdict
    · contradiction
    · cases hverdict
      contradiction
  · rcases Lexeme.slash_kind hread with rfl | rfl <;> contradiction

@[simp] theorem opening_leftParen : Opening (leftParen :: ps) := by
  intro c hc
  obtain rfl : '(' = c := Option.some.inj hc
  decide

/-- A piece delimits what stands before it by its first character. -/
theorem delimited_of_head {p : Piece} {c : Char} {cs : List Char} (hp : p.text.toList = c :: cs)
    (hc : Lexeme.isWordChar c = false ∧ c ≠ '.') : Delimited (p :: ps) := by
  intro c' hc'
  obtain rfl : c = c' := by simpa [hp] using hc'
  exact hc

@[simp] theorem delimited_space : Delimited (space :: ps) := delimited_of_head rfl (by decide)

@[simp] theorem delimited_leftParen : Delimited (leftParen :: ps) :=
  delimited_of_head rfl (by decide)

@[simp] theorem delimited_rightParen : Delimited (rightParen :: ps) :=
  delimited_of_head rfl (by decide)

@[simp] theorem delimited_comma : Delimited (comma :: ps) := delimited_of_head rfl (by decide)

@[simp] theorem delimited_semicolon : Delimited (semicolon :: ps) :=
  delimited_of_head rfl (by decide)

@[simp] theorem delimited_greater : Delimited (lexeme .compareOp ">" :: ps) :=
  delimited_of_head rfl (by decide)

end Parted

end Piece

end Clausal
