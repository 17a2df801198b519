import Clausal.Proofs.Grammar.Moving
import Clausal.Proofs.Tree.Reparsing

/-!
What lexemes denote. Lexemes denote an expression if they are read as it when they stand alone,
with a semicolon after them. It does not matter where the tokens stand: wherever the same lexemes
are, they derive as an expression, and it is the same one, spans aside.
-/

namespace Clausal

open Token Token.Shape

/-- With a semicolon after them the lexemes are a program that is one expression, this one with its
spans ignored. -/
def Token.Shape.Denotes (ls : List Shape) (e : Expr) : Prop :=
  ∃ (ts : List Token) (endOffset : Nat) (e' : Expr) (s : Span),
    ts.map shape = ls ++ [(.semicolon, ";")] ∧
      Program.ofItems (ts.map .ok) endOffset = .ok ⟨[.expression e' s]⟩ ∧ e'.bare = e.bare

namespace Program

/-- What tokens are read as does not depend on their places. -/
theorem ofItems_of_shapes {ts ts' : List Token} {endOffset : Nat} {p : Program}
    (h : ofItems (ts.map .ok) endOffset = .ok p) (hshapes : ts'.map shape = ts.map shape)
    (endOffset' : Nat) :
    ∃ p', ofItems (ts'.map .ok) endOffset' = .ok p' ∧ p'.bare = p.bare := by
  have hunplaced (us : List Token) : (us.map .ok).map (Item.moved fun _ => 0) =
      (us.map shape).map fun l => .ok ⟨l.1, l.2, ⟨0, 0⟩⟩ := by
    rw [List.map_map, List.map_map]
    rfl
  have hmoved (us : List Token) (n : Nat) := ofItems_moved (o := fun _ => 0)
    (fun _ _ _ => Nat.le_refl 0) rfl (us.map .ok) n
  have hsame := hmoved ts' endOffset'
  rw [hunplaced, hshapes, ← hunplaced, hmoved ts endOffset, h] at hsame
  cases hread : ofItems (ts'.map .ok) endOffset' with
  | error e =>
      rw [hread] at hsame
      cases hsame
  | ok p' =>
      rw [hread] at hsame
      exact ⟨p', rfl, (Except.ok.inj hsame).symm⟩

end Program

namespace Derivation

/-- A program without statements is the empty word. -/
theorem eq_nil_of_meaning {w : List Token} (d : Derivation .program w) (h : d.meaning = []) :
    w = [] := by
  cases d with
  | noStatement => rfl
  | nextStatement => cases h

/-- A program that is one statement derives as that statement. -/
theorem statement_of_program {w : List Token} {s : Statement} (d : Derivation .program w)
    (h : d.meaning = [s]) : ∃ d' : Derivation .statement w, d'.meaning = s := by
  cases d with
  | noStatement => cases h
  | nextStatement first others =>
      obtain ⟨hfirst, hothers⟩ := List.cons.inj h
      obtain rfl := others.eq_nil_of_meaning hothers
      rw [List.append_nil]
      exact ⟨first, hfirst⟩

/-- A statement alone is a program. -/
theorem ofItems_statement {w : List Token} {s : Statement} (d : Derivation .statement w)
    (h : d.meaning = s) (endOffset : Nat) : Program.ofItems (w.map .ok) endOffset = .ok ⟨[s]⟩ := by
  have hread := (Derivation.nextStatement d .noStatement).ofItems_eq_ok endOffset
  have hmeaning : (Derivation.nextStatement d .noStatement).meaning = [s] := congrArg ([·]) h
  rw [hmeaning, List.append_nil] at hread
  exact hread

/-- A statement that is an expression derives as that expression, and a semicolon after it. -/
theorem expression_of_statement {w : List Token} {e : Expr} {s : Span}
    (d : Derivation .statement w) (h : d.meaning = .expression e s) :
    ∃ u stop, w = u ++ [stop] ∧ ∃ d' : Derivation .expression u, d'.meaning = e := by
  cases d with
  | expression stop _ d' => exact ⟨_, stop, rfl, d', (Statement.expression.inj h).1⟩
  | comment | function | define => cases h

end Derivation

namespace Token.Shape.Denotes

/-- Wherever the lexemes stand, they derive as the expression that they denote. -/
theorem derives {ls : List Shape} {e : Expr} (h : Denotes ls e) :
    Derives .expression ls fun m : Expr => m.bare = e.bare := by
  intro ts hts
  obtain ⟨us, endOffset, e', s, hus, hread, he⟩ := h
  let stop : Token := ⟨.semicolon, ";", .point 0⟩
  have hshapes : (ts ++ [stop]).map shape = us.map shape := by
    rw [List.map_append, hts, hus]
    rfl
  obtain ⟨⟨ss⟩, hread', hbare⟩ := Program.ofItems_of_shapes hread hshapes 0
  obtain ⟨w, d, hw, hmeaning⟩ := Program.derivation_of_ofItems hread'
  obtain rfl := (List.map_inj_right fun _ _ => Except.ok.inj).mp hw
  simp only [Program.bare, Program.mapSpans, Program.mk.injEq] at hbare
  obtain ⟨st, rfl, hst⟩ := List.map_eq_singleton_iff.mp hbare
  obtain ⟨d, hd⟩ := d.statement_of_program hmeaning
  cases st with
  | expression e'' s'' =>
      obtain ⟨v, stop, hword, d, hd⟩ := d.expression_of_statement hd
      obtain ⟨rfl, -⟩ := List.append_inj' hword rfl
      refine ⟨d, ?_⟩
      rw [hd, ← he]
      exact (Statement.expression.inj hst).1
  | define | function | comment => cases hst

end Token.Shape.Denotes

end Clausal
