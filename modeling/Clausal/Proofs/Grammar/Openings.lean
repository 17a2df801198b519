import Mathlib
import Clausal.Proofs.Grammar.Derivation
import Clausal.Proofs.Token.Lines

/-!
What is missing where an input ends too early. Any word that begins a phrase can be gone on with to
a word of it, and a handful of tokens is enough to do so: a name, a type, one clause, and the signs
that close what is open. Words are put together as the readers are, from those of their parts, and
so the tokens that are missing are found for each part on its own.
-/

namespace Clausal

def ParseError.isUnexpectedEnd (e : ParseError) : Bool :=
  match e.cause with
  | .unexpectedEnd _ => true
  | _ => false

@[simp] theorem ParseError.isUnexpectedEnd_within (context : ParseError.Context)
    (e : ParseError) : (e.within context).isUnexpectedEnd = e.isUnexpectedEnd := rfl

namespace Token

/-- The token can be written on a line of its own, and it does not make a clause one that is
always taken. -/
structure Supplied (t : Token) : Prop where
  items_eq : TokenStream.bareItems t.text.toList = [.ok t]
  named : t.is .identifier "_" = false

open TokenStream in
/-- A lexeme that takes all of a text is the only item of the text. -/
theorem bareItems_of_read {c : Char} {cs : List Char} {kind : Kind} (hc : Text.isBlank c = false)
    (h : Lexeme.read c cs = Lexeme.token kind cs.length) :
    bareItems (c :: cs) = [.ok ⟨kind, String.ofList (c :: cs), .point 0⟩] := by
  rw [bareItems, itemsFrom_cons hc, h]
  simp only [Lexeme.token, List.drop_length, itemsFrom_nil, itemAt, h, List.take_length]
  rfl

/-- A lexeme that takes all of its text is a token to supply, unless its text begins as the blank
name does. -/
theorem supplied_of_read {c : Char} {cs : List Char} {kind : Kind}
    (hc : Text.isBlank c = false) (h : Lexeme.read c cs = Lexeme.token kind cs.length)
    (hname : c ≠ '_') : Supplied ⟨kind, String.ofList (c :: cs), .point 0⟩ := by
  refine ⟨?_, ?_⟩
  · rw [String.toList_ofList]
    exact bareItems_of_read hc h
  · have htext : String.ofList (c :: cs) ≠ "_" := by
      intro htext
      have hlist := congrArg String.toList htext
      rw [String.toList_ofList] at hlist
      exact hname (List.cons.inj hlist).1
    rw [Token.is, beq_eq_false_iff_ne.mpr htext, Bool.and_false]

/-- A token of the kind, as short as there is one. -/
def Kind.sample : Kind → List Char
  | comment => ['/', '/']
  | string => ['"', '"']
  | keyword => "otherwise".toList
  | typeName => "bool".toList
  | boolean => "true".toList
  | number => ['0']
  | identifier => ['x']
  | arrow => ['-', '>']
  | compareOp => ['>']
  | logicOp => ['!']
  | arithOp => ['+']
  | assign => ['=']
  | leftParen => ['(']
  | rightParen => [')']
  | leftBracket => ['[']
  | rightBracket => [']']
  | leftBrace => ['\x7b']
  | rightBrace => ['\x7d']
  | comma => [',']
  | semicolon => [';']
  | blank => [' ']

theorem Kind.supplied_sample (kind : Kind) (h : kind ≠ .blank) :
    Supplied ⟨kind, String.ofList kind.sample, .point 0⟩ := by
  cases kind with
  | blank => contradiction
  | _ => exact supplied_of_read (by decide) rfl (by decide)

/-- There is a token to supply of every kind but the blanks, which the lexer leaves out. -/
theorem exists_supplied_kind (kind : Kind) (h : kind ≠ .blank) :
    ∃ t : Token, t.Supplied ∧ t.kind = kind :=
  ⟨_, kind.supplied_sample h, rfl⟩

end Token

def Phrase.words (s : Phrase) : Language Token :=
  ({w | Nonempty (Derivation s w)} : Set (List Token))

/-- The word can be gone on with to a word of the language, by tokens that can be supplied. -/
def Opens (L : Language Token) (w : List Token) : Prop :=
  ∃ v, (∀ t ∈ v, t.Supplied) ∧ w ++ v ∈ L

theorem Opens.of_mem {L : Language Token} {w : List Token} (h : w ∈ L) : Opens L w :=
  ⟨[], by simp, by rwa [List.append_nil]⟩

theorem Opens.mono {L M : Language Token} {w : List Token} (hle : L ≤ M) (h : Opens L w) :
    Opens M w := by
  obtain ⟨v, hv, hword⟩ := h
  exact ⟨v, hv, hle hword⟩

/-- Words, each with the values that it may be read to. -/
abbrev Readings (α : Type) : Type := List Token → α → Prop

namespace Readings

variable {α β : Type}

def words (G : Readings α) : Language Token := ({w | ∃ a, G w a} : Set (List Token))

/-- One token that is like this, read to itself. -/
inductive token (P : Token → Prop) : Readings Token
  | mk {t : Token} (h : P t) : token P [t] t

inductive nothing (a : α) : Readings α
  | mk : nothing a [] a

inductive map (g : α → β) (G : Readings α) : Readings β
  | mk {w : List Token} {a : α} (h : G w a) : map g G w (g a)

/-- One word behind another, where the value of the first tells what the second may be. -/
inductive bind (G : Readings α) (K : α → Readings β) : Readings β
  | mk {u v : List Token} {a : α} {b : β} (first : G u a) (rest : K a v b) :
      bind G K (u ++ v) b

variable {G H : Readings α} {K : α → Readings β} {P : Token → Prop} {u w : List Token}

theorem words_mono (hle : G ≤ H) : G.words ≤ H.words := by
  rintro w ⟨a, h⟩
  exact ⟨a, hle w a h⟩

theorem opens_token (h : ∃ t : Token, t.Supplied ∧ P t) : Opens (token P).words [] := by
  obtain ⟨t, ht, hP⟩ := h
  exact ⟨[t], List.forall_mem_singleton.mpr ht, t, .mk hP⟩

theorem opens_map (g : α → β) (h : Opens G.words w) : Opens (map g G).words w := by
  obtain ⟨v, hv, a, hword⟩ := h
  exact ⟨v, hv, g a, .mk hword⟩

/-- An opening of the first word opens both, where the second can be written from nothing. -/
theorem opens_bind (h : Opens G.words w) (hK : ∀ a, Opens (K a).words []) :
    Opens (bind G K).words w := by
  obtain ⟨v, hv, a, hword⟩ := h
  obtain ⟨v', hv', b, hword'⟩ := hK a
  refine ⟨v ++ v', fun t ht => ?_, b, ?_⟩
  · exact (List.mem_append.mp ht).elim (hv t) (hv' t)
  · rw [← List.append_assoc]
    exact .mk hword hword'

end Readings

/-- The words of a phrase, with what they mean seen through a function. -/
def Phrase.readings {α : Type} (s : Phrase) (f : s.Meaning → α) : Readings α :=
  fun w a => ∃ d : Derivation s w, f d.meaning = a

theorem Phrase.words_readings {α : Type} (s : Phrase) (f : s.Meaning → α) :
    (s.readings f).words = s.words := by
  ext w
  constructor
  · rintro ⟨-, d, -⟩
    exact ⟨d⟩
  · rintro ⟨d⟩
    exact ⟨_, d, rfl⟩

end Clausal
