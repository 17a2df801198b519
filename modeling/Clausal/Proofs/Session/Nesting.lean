import Mathlib
import Clausal.Proofs.Grammar.Boundary
import Clausal.Session

/-!
Brackets and the ends of statements. Every phrase closes the brackets that it opens, and within an
expression a semicolon or a comment stands inside of brackets only. So a word that can be run,
because no bracket is open and its last token ends a statement, never ends within a statement: where
a program starts with such a word, it consists of two programs. The test counts the brackets in 32
bits. What it passes can be run, unless so many brackets are open that the count has wrapped around.
-/

namespace Clausal

/-- How a token changes the number of open brackets. -/
def Token.Kind.nesting : Token.Kind → Int
  | leftParen | leftBracket | leftBrace => 1
  | rightParen | rightBracket | rightBrace => -1
  | _ => 0

/-- How many more brackets are open after the word than before it. -/
def nesting (w : List Token) : Int := w.foldr (fun t n => t.kind.nesting + n) 0

@[simp] theorem nesting_nil : nesting [] = 0 := rfl

@[simp] theorem nesting_cons (t : Token) (w : List Token) :
    nesting (t :: w) = t.kind.nesting + nesting w := rfl

@[simp] theorem nesting_append (u v : List Token) : nesting (u ++ v) = nesting u + nesting v := by
  induction u with
  | nil => simp
  | cons t u ih => simp [ih, Int.add_assoc]

theorem nesting_le_length (w : List Token) : nesting w ≤ w.length := by
  induction w with
  | nil => exact Int.le_refl 0
  | cons t w ih =>
      have hstep : t.kind.nesting ≤ 1 := by cases t.kind <;> decide
      rw [nesting_cons, List.length_cons]
      omega

/-- Opening brackets are counted one by one. -/
theorem nesting_opening {u : List Token} (h : ∀ t ∈ u, t.kind = .leftParen) :
    nesting u = u.length := by
  induction u with
  | nil => rfl
  | cons t u ih =>
      obtain ⟨ht, hu⟩ := List.forall_mem_cons.mp h
      rw [nesting_cons, ih hu, ht, List.length_cons]
      simp [Token.Kind.nesting, Int.add_comm]

theorem nesting_closing {v : List Token} (h : ∀ t ∈ v, t.kind = .rightParen) :
    nesting v = -v.length := by
  induction v with
  | nil => rfl
  | cons t v ih =>
      obtain ⟨ht, hv⟩ := List.forall_mem_cons.mp h
      rw [nesting_cons, ih hv, ht, List.length_cons]
      simp only [Token.Kind.nesting]
      omega

namespace Token

/-- Whether a statement may end with the token. -/
def ends (t : Token) : Bool := t.kind == .semicolon || t.kind == .comment

/-- The token is no bracket, and no statement ends with it. -/
def Plain (t : Token) : Prop := t.kind.nesting = 0 ∧ t.ends = false

/-- A token that is no bracket and ends nothing is plain. -/
theorem plain_of_kind {t : Token} {kind : Kind} (ht : t.kind = kind)
    (h : kind.nesting = 0 ∧ (kind == .semicolon || kind == .comment) = false) : t.Plain := by
  subst ht
  exact h

theorem plain_of_kind_or {t : Token} {kind kind' : Kind} (ht : t.kind = kind ∨ t.kind = kind')
    (h : kind.nesting = 0 ∧ (kind == .semicolon || kind == .comment) = false)
    (h' : kind'.nesting = 0 ∧ (kind' == .semicolon || kind' == .comment) = false) : t.Plain :=
  ht.elim (plain_of_kind · h) (plain_of_kind · h')

theorem ends_of_semicolon {t : Token} (h : t.kind = .semicolon) : t.ends = true := by
  simp [ends, h]

end Token

/-- With so many brackets open, the word closes no more than are open, and a token with which a
statement may end stands inside of brackets. -/
def Steady : Int → List Token → Prop
  | _, [] => True
  | depth, t :: w => 0 ≤ depth + t.kind.nesting ∧ (t.ends = true → 0 < depth + t.kind.nesting) ∧
      Steady (depth + t.kind.nesting) w

namespace Steady

/-- A word stays above the bottom where its front does, and the rest from the depth the front has
reached. -/
theorem append_iff {depth : Int} {u v : List Token} :
    Steady depth (u ++ v) ↔ Steady depth u ∧ Steady (depth + nesting u) v := by
  induction u generalizing depth with
  | nil => simp [Steady]
  | cons t u ih =>
      simp only [List.cons_append, Steady, ih, nesting_cons, Int.add_assoc, and_assoc]

/-- What stays above the bottom from some depth does so from a greater one. -/
theorem mono {depth depth' : Int} {w : List Token} (h : Steady depth w) (hle : depth ≤ depth') :
    Steady depth' w := by
  induction w generalizing depth depth' with
  | nil => trivial
  | cons t w ih =>
      obtain ⟨hopen, hends, hw⟩ := h
      exact ⟨by omega, fun ht => by have := hends ht; omega, ih hw (by omega)⟩

theorem nesting_nonneg {depth : Int} {w : List Token} (h : Steady depth w) (hdepth : 0 ≤ depth) :
    0 ≤ depth + nesting w := by
  induction w generalizing depth with
  | nil => simpa using hdepth
  | cons t w ih =>
      obtain ⟨hopen, -, hw⟩ := h
      have hrest := ih hw hopen
      rwa [nesting_cons, ← Int.add_assoc]

end Steady

/-- The word closes the brackets that it opens, and is steady. -/
structure Settled (depth : Int) (w : List Token) : Prop where
  nesting : nesting w = 0
  steady : Steady depth w

namespace Settled

variable {u v w : List Token} {t opening closing : Token}

theorem nil (depth : Int) : Settled depth [] := ⟨rfl, trivial⟩

theorem append {depth : Int} (hu : Settled depth u) (hv : Settled depth v) :
    Settled depth (u ++ v) := by
  have hnesting : Clausal.nesting (u ++ v) = 0 := by
    rw [nesting_append, hu.nesting, hv.nesting]
    rfl
  refine ⟨hnesting, Steady.append_iff.mpr ⟨hu.steady, ?_⟩⟩
  rw [hu.nesting, Int.add_zero]
  exact hv.steady

/-- A settled word is settled behind an opening bracket too. -/
theorem inside (h : Settled 0 w) : Settled 1 w := ⟨h.nesting, h.steady.mono (by decide)⟩

theorem single {depth : Int} (hdepth : 0 ≤ depth) (ht : t.Plain) : Settled depth [t] := by
  refine ⟨by simp [ht.1], ?_, fun h => ?_, trivial⟩
  · rw [ht.1]
    omega
  · rw [ht.2] at h
    contradiction

theorem cons (ht : t.Plain) (hw : Settled 0 w) : Settled 0 (t :: w) :=
  (single (Int.le_refl 0) ht).append hw

/-- Inside of brackets a statement may end. -/
theorem stop (ht : t.kind.nesting = 0) : Settled 1 [t] := by
  refine ⟨by simp [ht], ?_, fun _ => ?_, trivial⟩
  · rw [ht]
    decide
  · rw [ht]
    decide

/-- Brackets around a settled word make a settled word. -/
theorem enclosed (ho : opening.kind.nesting = 1) (hc : closing.kind.nesting = -1)
    (hends : closing.ends = false) (hw : Settled 1 w) :
    Settled 0 (opening :: (w ++ [closing])) := by
  refine ⟨by simp [ho, hc, hw.nesting], ?_, fun _ => ?_, ?_⟩
  · rw [ho]
    decide
  · rw [ho]
    decide
  · rw [ho, Steady.append_iff, hw.nesting]
    exact ⟨hw.steady, by rw [hc]; decide, by simp [hends], trivial⟩

theorem parenthesized (ho : opening.kind = .leftParen) (hc : closing.kind = .rightParen)
    (hw : Settled 0 w) : Settled 0 (opening :: (w ++ [closing])) :=
  enclosed (by rw [ho]; rfl) (by rw [hc]; rfl) (by rw [Token.ends, hc]; rfl) hw.inside

/-- Settled words around a plain token make a settled word. -/
theorem separated (ht : t.Plain) (hu : Settled 0 u) (hv : Settled 0 v) :
    Settled 0 (u ++ t :: v) :=
  hu.append (hv.cons ht)

end Settled

/-- The word can be run: no bracket is open, and its last token ends a statement. -/
def Complete (w : List Token) : Prop := nesting w ≤ 0 ∧ ∀ t ∈ w.getLast?, t.ends = true

/-- What a derivation says of the brackets in its word. -/
def Phrase.Nests : Phrase → List Token → Prop
  | clause, w | clauses, w => Settled 1 w
  | statement, w => Settled 1 w ∧ ∃ u t, w = u ++ [t] ∧ t.ends = true ∧ Steady 0 u
  | program, w => Settled 1 w ∧ ∀ t ∈ w.getLast?, t.ends = true
  | _, w => Settled 0 w

namespace Derivation

open Token

/-- A statement ends with its semicolon, at the depth where it began. -/
theorem nests_statement {u : List Token} {stop : Token} (hu : Settled 0 u)
    (hs : stop.kind = .semicolon) : Phrase.Nests .statement (u ++ [stop]) :=
  ⟨hu.inside.append (.stop (by rw [hs]; rfl)), u, stop, rfl, ends_of_semicolon hs, hu.steady⟩

theorem nests_clause {u v : List Token} {keyword arrow stop : Token}
    (hk : keyword.kind = .keyword) (hu : Settled 0 u) (ha : arrow.kind = .arrow)
    (hs : stop.kind = .semicolon) (hv : Settled 0 v) :
    Phrase.Nests .clause (keyword :: (u ++ arrow :: (v ++ [stop]))) := by
  have hstop : Settled 1 [stop] := .stop (by rw [hs]; rfl)
  have harrow : Settled 1 (arrow :: v) := (hv.cons (plain_of_kind ha ⟨rfl, rfl⟩)).inside
  exact (hu.cons (plain_of_kind hk ⟨rfl, rfl⟩)).inside.append (harrow.append hstop)

/-- By the rules every phrase closes what it opens. -/
theorem nests {s : Phrase} {w : List Token} (d : Derivation s w) : s.Nests w := by
  induction d with
  | number t ht _ | string t ht | boolean t ht | ident t ht =>
      exact .single (Int.le_refl 0) (plain_of_kind ht ⟨rfl, rfl⟩)
  | grouping opening closing ho hc _ ih => exact .parenthesized ho hc ih
  | tuple opening comma closing ho hm hc _ _ ihu ihv =>
      have hinner := ihu.separated (plain_of_kind hm ⟨rfl, rfl⟩) ihv
      have hword := Settled.parenthesized ho hc hinner
      rw [List.append_assoc, List.cons_append] at hword
      exact hword
  | matching keyword opening closing hk ho hc _ _ ihu ihv =>
      have hcases := Settled.enclosed (by rw [ho]; rfl) (by rw [hc]; rfl)
        (by rw [ends, hc]; rfl) ihv
      exact (Settled.append ihu hcases).cons (plain_of_kind (kind_of_is hk) ⟨rfl, rfl⟩)
  | called _ _ ihu ihv | operations _ _ ihu ihv | call _ _ ihu ihv => exact Settled.append ihu ihv
  | unary t op ht _ ih =>
      exact ih.cons (plain_of_kind_or (kind_of_unaryOp? ht) ⟨rfl, rfl⟩ ⟨rfl, rfl⟩)
  | noOperation | noCall => exact .nil 0
  | operation t op ht _ _ _ ihu ihv =>
      have hplain : t.Plain := (kind_of_binaryOp? ht).elim (plain_of_kind · ⟨rfl, rfl⟩)
        (plain_of_kind_or · ⟨rfl, rfl⟩ ⟨rfl, rfl⟩)
      exact (Settled.append ihu ihv).cons hplain
  | noArguments opening closing ho hc | noParameters opening closing ho hc =>
      exact .parenthesized ho hc (.nil 0)
  | someArguments opening closing ho hc _ ih | someParameters opening closing ho hc _ ih =>
      exact .parenthesized ho hc ih
  | lastExpression _ ih | enclosedBinders _ ih => exact ih
  | nextExpression comma hm _ _ ihu ihv => exact ihu.separated (plain_of_kind hm ⟨rfl, rfl⟩) ihv
  | lastName t ht | oneBinder t ht =>
      exact .single (Int.le_refl 0) (plain_of_kind ht ⟨rfl, rfl⟩)
  | nextName t comma ht hm _ ih =>
      exact (ih.cons (plain_of_kind hm ⟨rfl, rfl⟩)).cons (plain_of_kind ht ⟨rfl, rfl⟩)
  | blank keyword name arrow stop hk hn ha hs _ ih =>
      exact nests_clause (u := [name]) (kind_of_is hk)
        (.single (Int.le_refl 0) (plain_of_kind (kind_of_is hn) ⟨rfl, rfl⟩)) ha hs ih
  | otherwise keyword arrow stop hk ha hs _ ih =>
      exact nests_clause (u := []) (kind_of_is hk) (.nil 0) ha hs ih
  | guarded keyword arrow stop hk ha hs _ _ _ ihu ihv =>
      exact nests_clause (kind_of_is hk) ihu ha hs ihv
  | noClause => exact .nil 1
  | remark t ht _ ih => exact Settled.append (.stop (by rw [ht]; rfl)) ih
  | nextClause _ _ ihu ihv => exact Settled.append ihu ihv
  | lastType t ht => exact .single (Int.le_refl 0) (plain_of_kind_or ht ⟨rfl, rfl⟩ ⟨rfl, rfl⟩)
  | nextType t comma ht hm _ ih =>
      exact (ih.cons (plain_of_kind hm ⟨rfl, rfl⟩)).cons
        (plain_of_kind_or ht ⟨rfl, rfl⟩ ⟨rfl, rfl⟩)
  | sugared assign ha _ _ ihu ihv => exact ihu.separated (plain_of_kind ha ⟨rfl, rfl⟩) ihv
  | plain assign ha _ ih => exact ih.cons (plain_of_kind ha ⟨rfl, rfl⟩)
  | comment t ht =>
      exact ⟨.stop (by rw [ht]; rfl), [], t, rfl, by simp [ends, ht], trivial⟩
  | function opening closing name stop ho hc hn hs _ _ ihu ihv =>
      have hbody := Settled.cons (plain_of_kind hn ⟨rfl, rfl⟩) ihv
      have hhead := ihu.separated (plain_of_kind (kind_of_is hc) ⟨rfl, rfl⟩) hbody
      simpa using nests_statement (hhead.cons (plain_of_kind (kind_of_is ho) ⟨rfl, rfl⟩)) hs
  | define type name assign stop ht hn ha hs _ ih =>
      have hinit := Settled.cons (plain_of_kind ha ⟨rfl, rfl⟩) ih
      have hnamed := hinit.cons (plain_of_kind hn ⟨rfl, rfl⟩)
      exact nests_statement (hnamed.cons (plain_of_kind ht ⟨rfl, rfl⟩)) hs
  | expression stop hs _ ih => exact nests_statement ih hs
  | noStatement => exact ⟨.nil 1, by simp⟩
  | nextStatement _ _ ihu ihv =>
      obtain ⟨hu, u, t, rfl, ht, -⟩ := ihu
      obtain ⟨hv, hlast⟩ := ihv
      refine ⟨hu.append hv, fun s hs => ?_⟩
      rw [List.getLast?_append] at hs
      cases hempty : List.getLast? _ with
      | some s' =>
          rw [hempty] at hs
          exact hlast s (hempty.trans hs)
      | none =>
          rw [hempty, List.getLast?_concat] at hs
          rwa [← Option.some.inj hs]

/-- The words of a program bring the count of brackets back to nothing. -/
theorem complete {w : List Token} (d : Derivation .program w) : Complete w :=
  ⟨Int.le_of_eq d.nests.1.nesting, d.nests.2⟩

end Derivation

/-- A word within an expression does not end a statement where no bracket is open. -/
theorem Steady.not_complete {w : List Token} (h : Steady 0 w) (hne : w ≠ []) : ¬ Complete w := by
  rintro ⟨hnesting, hlast⟩
  obtain ⟨u, t, rfl⟩ := (List.eq_nil_or_concat w).resolve_left hne
  rw [List.concat_eq_append] at hnesting hlast h
  have hends : t.ends = true := hlast t (List.getLast?_concat ..)
  have hopen := (Steady.append_iff.mp h).2.2.1 hends
  rw [nesting_append, nesting_cons, nesting_nil] at hnesting
  omega

theorem Complete.of_append {u v : List Token} (hu : nesting u = 0) (h : Complete (u ++ v)) :
    Complete v := by
  obtain ⟨hnesting, hlast⟩ := h
  refine ⟨by rw [nesting_append] at hnesting; omega, fun t ht => hlast t ?_⟩
  rw [List.getLast?_append, Option.mem_def.mp ht]
  rfl

/-- A proper part at the front of a statement is no word that can be run. -/
theorem Derivation.not_complete_of_statement {u v : List Token}
    (d : Derivation .statement (u ++ v)) (hu : u ≠ []) (hv : v ≠ []) : ¬ Complete u := by
  obtain ⟨-, w, t, hw, -, hsteady⟩ := d.nests
  obtain ⟨v, t', rfl⟩ := (List.eq_nil_or_concat v).resolve_left hv
  rw [List.concat_eq_append, ← List.append_assoc] at hw
  obtain ⟨rfl, -⟩ := List.append_inj' hw rfl
  exact (Steady.append_iff.mp hsteady).1.not_complete hu

theorem Derivation.exists_single {u : List Token} (d : Derivation .statement u) :
    ∃ d' : Derivation .program u, d'.meaning = [d.meaning] := by
  have h : ∃ d' : Derivation .program (u ++ []), d'.meaning = [d.meaning] :=
    ⟨.nextStatement d .noStatement, rfl⟩
  rwa [List.append_nil] at h

/-- Where a program starts with a word that can be run, that word is a program, and so is the rest.
The induction is on the statements of the program, none of which the word ends in. -/
theorem Derivation.exists_split : ∀ {w : List Token} (d : Derivation .program w)
    {u v : List Token}, w = u ++ v → Complete u →
      ∃ (d₁ : Derivation .program u) (d₂ : Derivation .program v),
        d.meaning = d₁.meaning ++ d₂.meaning
  | _, .noStatement, u, v, hw, _ => by
      obtain ⟨rfl, rfl⟩ := List.append_eq_nil_iff.mp hw.symm
      exact ⟨.noStatement, .noStatement, rfl⟩
  | _, .nextStatement (u := x) (v := y) first others, u, v, hw, hu => by
      rcases List.append_eq_append_iff.mp hw with ⟨a, rfl, hy⟩ | ⟨a, hx, hv⟩
      · obtain ⟨d₁, d₂, hmeaning⟩ := others.exists_split hy (hu.of_append first.nests.1.nesting)
        exact ⟨.nextStatement first d₁, d₂, congrArg (first.meaning :: ·) hmeaning⟩
      · by_cases ha : a = []
        · rw [ha, List.append_nil] at hx
          rw [ha, List.nil_append] at hv
          subst hx hv
          obtain ⟨d₁, hd₁⟩ := first.exists_single
          exact ⟨d₁, others, by rw [hd₁]; rfl⟩
        · subst hx hv
          by_cases hne : u = []
          · subst hne
            exact ⟨.noStatement, .nextStatement first others, rfl⟩
          · exact absurd hu (first.not_complete_of_statement hne ha)
termination_by w => w.length
decreasing_by
  obtain ⟨-, z, t, rfl, -⟩ := first.nests
  simp only [List.length_append, List.length_singleton]
  omega

/-- The word passes the test: no bracket is open as they are counted, and its last token ends a
statement. -/
def Passes (w : List Token) : Prop := bracketCount w ≤ 0 ∧ ∀ t ∈ w.getLast?, t.ends = true

/-- The word passes the test although brackets are open. -/
def Miscounted (w : List Token) : Prop := Passes w ∧ 0 < nesting w

/-- A step of the counter is a step of the sum, wrapped around at 32 bits. -/
theorem Token.Kind.toInt_count (depth : Int32) (kind : Token.Kind) :
    (kind.count depth).toInt = (depth.toInt + kind.nesting).bmod (2 ^ 32) := by
  cases kind with
  | leftParen | leftBracket | leftBrace => exact Int32.toInt_add depth 1
  | rightParen | rightBracket | rightBrace => exact Int32.toInt_sub depth 1
  | _ =>
      change depth.toInt = (depth.toInt + 0).bmod (2 ^ 32)
      rw [Int.add_zero]
      exact (Int32.toInt_bmod depth).symm

/-- The count is that of the open brackets, up to a multiple of the size of a word. -/
theorem toInt_bracketCount (w : List Token) :
    (bracketCount w).toInt = (nesting w).bmod (2 ^ 32) := by
  have hcount (depth : Int32) :
      (w.foldl (fun depth t => t.kind.count depth) depth).toInt =
        (depth.toInt + nesting w).bmod (2 ^ 32) := by
    induction w generalizing depth with
    | nil =>
        rw [List.foldl_nil, nesting_nil, Int.add_zero]
        exact (Int32.toInt_bmod depth).symm
    | cons t w ih =>
        rw [List.foldl_cons, ih, Token.Kind.toInt_count, Int.bmod_add_bmod, nesting_cons,
          Int.add_assoc]
  rw [bracketCount, hcount, Int32.toInt_zero, Int.zero_add]

/-- What closes the brackets that it opens leaves no trace in the count. -/
theorem bracketCount_append {u : List Token} (hu : nesting u = 0) (v : List Token) :
    bracketCount (u ++ v) = bracketCount v := by
  rw [← Int32.toInt_inj, toInt_bracketCount, toInt_bracketCount, nesting_append, hu, Int.zero_add]

/-- As long as the sum fits into 32 bits, the counter tells the same as the sum. -/
theorem bracketCount_nonpos_iff {w : List Token} (hlow : -2 ^ 31 ≤ nesting w)
    (hhigh : nesting w < 2 ^ 31) : bracketCount w ≤ 0 ↔ nesting w ≤ 0 := by
  rw [Int32.le_iff_toInt_le, toInt_bracketCount, Int32.toInt_zero,
    Int.bmod_eq_of_le_mul_two (by omega) (by omega)]

/-- It takes so many open brackets that the count wraps around. -/
theorem Miscounted.le_nesting {w : List Token} (h : Miscounted w) : 2 ^ 31 ≤ nesting w := by
  obtain ⟨⟨hcount, -⟩, hopen⟩ := h
  refine Int.not_lt.mp fun hfits => ?_
  have hclosed := (bracketCount_nonpos_iff (by omega) hfits).mp hcount
  omega

theorem Passes.complete {w : List Token} (h : Passes w) (hcounted : ¬ Miscounted w) :
    Complete w :=
  ⟨Int.not_lt.mp fun hopen => hcounted ⟨h, hopen⟩, h.2⟩

/-- The words of a program pass, however far they are counted up in between. -/
theorem Derivation.passes {w : List Token} (d : Derivation .program w) : Passes w := by
  refine ⟨?_, d.nests.2⟩
  have hnesting := d.nests.1.nesting
  exact (bracketCount_nonpos_iff (by omega) (by omega)).mpr (Int.le_of_eq hnesting)

/-- The test of an input without errors looks at its tokens only. -/
theorem isInputCompleteBy_iff {closed : List Token → Bool} (hnil : closed [] = true)
    {source : String} {ts : List Token} (h : (TokenStream.ofSource source).items = ts.map .ok) :
    isInputCompleteBy closed source = true ↔
      closed ts = true ∧ ∀ t ∈ ts.getLast?, t.ends = true := by
  have hlex : lexSource source = .ok ts := by
    rw [lexSource, h, Token.all?_map_ok]
    rfl
  simp only [isInputCompleteBy, hlex]
  cases hlast : ts.getLast? with
  | none =>
      obtain rfl := List.getLast?_eq_none_iff.mp hlast
      simp [hnil]
  | some t => simp [Token.ends]

/-- A text is complete where its tokens pass. -/
theorem isInputComplete_iff {source : String} {ts : List Token}
    (h : (TokenStream.ofSource source).items = ts.map .ok) :
    isInputComplete source = true ↔ Passes ts := by
  rw [isInputComplete, isInputCompleteBy_iff rfl h, decide_eq_true_iff]
  rfl

theorem isInputCompleteBy_nesting_iff {source : String} {ts : List Token}
    (h : (TokenStream.ofSource source).items = ts.map .ok) :
    isInputCompleteBy (nesting · ≤ 0) source = true ↔ Complete ts := by
  rw [isInputCompleteBy_iff rfl h, decide_eq_true_iff]
  rfl

end Clausal
