import Clausal.Proofs.Grammar.Cores
import Clausal.Proofs.Grammar.Denoting
import Clausal.Proofs.Grammar.Geometry
import Clausal.Proofs.Token.Cutting

/-!
The source at the spans of a program. The span of a statement ends where its last token does, and
starts where its first token does unless that is a parenthesis around a part of an expression. What
stands at the span of an expression, with a semicolon after it, is read as the same expression
again, spans ignored, unless the span has one end of a pair of parentheses and not the other. Either
way the brackets between the ends of the span tell.
-/

namespace Clausal

open Token Text

def Span.tokens (s : Span) (ts : List Token) : List Token :=
  ts.filter fun t => s.start ≤ t.span.start ∧ t.span.stop ≤ s.stop

/-- What stands in the source at the span of the expression is, with a semicolon after it, read as a
statement that is the same expression, spans ignored. -/
def Expr.Rereads (source : String) (e : Expr) : Prop :=
  ∃ piece e' s, slice? source.toList e.span.start e.span.stop = some piece ∧
    Program.parse (.ofList (piece ++ [';'])) = .ok ⟨[.expression e' s]⟩ ∧ e'.bare = e.bare

namespace Span

variable {lo hi : Nat} {s : Span} {u w : List Token}

theorem RunsOver.ne_nil (h : s.RunsOver w) : w ≠ [] := by
  obtain ⟨t, ht, -⟩ := h.start
  exact List.ne_nil_of_mem (List.mem_of_mem_head? ht)

theorem RunsOver.start_eq (h : s.RunsOver w) : s.start = (w.head h.ne_nil).span.start := by
  obtain ⟨t, ht, hstart⟩ := h.start
  rw [hstart, (List.head_eq_iff_head?_eq_some _).mpr ht]

theorem RunsOver.stop_eq (h : s.RunsOver w) : s.stop = (w.getLast h.ne_nil).span.stop := by
  obtain ⟨t, ht, hstop⟩ := h.stop
  rw [hstop, (List.getLast_eq_iff_getLast?_eq_some _).mpr ht]

theorem Row.inOrder (h : Row lo (w.map (·.span)) hi) : InOrder w := by
  induction w generalizing lo with
  | nil => exact .nil
  | cons t w ih =>
      rw [List.map_cons, row_cons] at h
      obtain ⟨-, hsome, hw⟩ := h
      refine .cons (fun t' ht' => ?_) (ih hw)
      have hbounds := hw.bounds _ (List.mem_map_of_mem ht')
      have hsome' := hw.some _ (List.mem_map_of_mem ht')
      omega

/-- A span that runs over a row has all of it. -/
theorem RunsOver.bounds (hrow : Row lo (w.map (·.span)) hi) (h : s.RunsOver w) :
    lo ≤ s.start ∧ s.stop ≤ hi ∧ ∀ t ∈ w, s.start ≤ t.span.start ∧ t.span.stop ≤ s.stop := by
  obtain ⟨⟨first, hfirst, hstart⟩, last, hlast, hstop⟩ := h
  obtain ⟨tail, rfl⟩ := List.head?_eq_some_iff.mp hfirst
  obtain ⟨init, hw⟩ := List.getLast?_eq_some_iff.mp hlast
  have hbounds := hrow.bounds
  have hends : ∀ t ∈ first :: tail, t.span.stop ≤ last.span.stop := by
    rw [hw] at hrow ⊢
    simp only [List.map_append, List.map_cons, List.map_nil, row_append, row_cons, row_nil] at hrow
    obtain ⟨m, hinit, hm, hsome, -⟩ := hrow
    refine List.forall_mem_append.mpr
      ⟨fun t ht => ?_, List.forall_mem_singleton.mpr (Nat.le_refl _)⟩
    have hle := (hinit.bounds _ (List.mem_map_of_mem ht)).2
    omega
  rw [List.map_cons, row_cons] at hrow
  obtain ⟨hlo, hsome, htail⟩ := hrow
  have hmem : last ∈ first :: tail := List.mem_of_mem_getLast? hlast
  rw [hstart, hstop]
  refine ⟨hlo, (hbounds _ (List.mem_map_of_mem hmem)).2, fun t ht => ⟨?_, hends t ht⟩⟩
  rcases List.mem_cons.mp ht with rfl | ht
  · exact Nat.le_refl _
  · have hle := (htail.bounds _ (List.mem_map_of_mem ht)).1
    omega

/-- In a row the tokens that lie in a span are those that it runs over. -/
theorem RunsOver.tokens_eq {before core after : List Token}
    (hrow : Row lo ((before ++ (core ++ after)).map (·.span)) hi) (h : s.RunsOver core) :
    s.tokens (before ++ (core ++ after)) = core := by
  rw [List.map_append, List.map_append] at hrow
  obtain ⟨m, hbefore, hrest⟩ := row_append.mp hrow
  obtain ⟨m', hcore, hafter⟩ := row_append.mp hrest
  obtain ⟨hlow, hhigh, hinside⟩ := h.bounds hcore
  have hnone {w : List Token} {a b : Nat} (hw : Row a (w.map (·.span)) b)
      (hapart : b ≤ s.start ∨ s.stop ≤ a) : s.tokens w = [] := by
    refine List.filter_eq_nil_iff.mpr fun t ht hin => ?_
    have hsome := hw.some _ (List.mem_map_of_mem ht)
    have hbounds := hw.bounds _ (List.mem_map_of_mem ht)
    simp only [decide_eq_true_eq] at hin
    omega
  have hall : s.tokens core = core :=
    List.filter_eq_self.mpr fun t ht => decide_eq_true (hinside t ht)
  calc s.tokens (before ++ (core ++ after))
      = s.tokens before ++ (s.tokens core ++ s.tokens after) := by
        rw [tokens, List.filter_append, List.filter_append]
        rfl
    _ = core := by
        rw [hnone hbefore (.inl hlow), hnone hafter (.inr hhigh), hall, List.nil_append,
          List.append_nil]

end Span

section Shapes

variable {u v : List Token}

theorem nesting_of_shapes (h : u.map shape = v.map shape) : nesting u = nesting v := by
  have hsum (w : List Token) : nesting w = ((w.map shape).map (·.1.nesting)).sum := by
    induction w with
    | nil => rfl
    | cons t w ih =>
        rw [nesting_cons, ih]
        rfl
  rw [hsum, hsum, h]

theorem Bracketed.of_shapes (h : Bracketed u) (hshapes : u.map shape = v.map shape) :
    Bracketed v := by
  refine ⟨nesting_of_shapes hshapes ▸ h.nesting, fun front hfront => ?_⟩
  have hprefix : (u.take front.length).map shape = front.map shape := by
    rw [List.map_take, hshapes, ← List.map_take, ← List.prefix_iff_eq_take.mp hfront]
  rw [← nesting_of_shapes hprefix]
  exact h.opened _ (List.take_prefix _ _)

end Shapes

namespace Derivation

variable {w : List Token}

/-- The brackets of a statement are in order. -/
theorem bracketed_statement (d : Derivation .statement w) : Bracketed w := by
  obtain ⟨hw, u, t, rfl, -, hu⟩ := d.nests
  refine ⟨hw.nesting, fun v hv => ?_⟩
  rcases List.prefix_concat_iff.mp hv with rfl | ⟨rest, rfl⟩
  · exact Int.le_of_eq hw.nesting.symm
  · have hfront := (Steady.append_iff.mp hu).1.nesting_nonneg (Int.le_refl 0)
    rwa [Int.zero_add] at hfront

end Derivation

/-- What the span of a statement that was read from a word of the source says. -/
structure Statement.Sliced (ts w : List Token) (s : Statement) : Prop where
  derives : ∃ d : Derivation .statement w, d.meaning = s
  stop : ∃ t ∈ w.getLast?, s.span.stop = t.span.stop
  whole : (∀ e s', s ≠ .expression e s') → s.span.RunsOver w
  runsOver_iff : s.span.RunsOver w ↔ Bracketed (s.span.tokens ts)

/-- What the spans of a program say of the source, whose tokens are these. -/
structure Program.Sliced (source : String) (ts : List Token) (p : Program) : Prop where
  statements : ∃ words : List (List Token), ts = words.flatten ∧
    List.Forall₂ (Statement.Sliced ts) words p.statements
  nodes : ∀ e ∈ p.nodes, e.Rereads source ↔ Bracketed (e.span.tokens ts)

section Source

variable {source : String} {ts w : List Token} {hi : Nat}

theorem Statement.sliced_of_standsIn {s : Statement} {before after : List Token}
    (hrow : Span.Row 0 (ts.map (·.span)) hi) (hts : ts = before ++ (w ++ after))
    (d : Derivation .statement w) (hd : d.meaning = s) (h : s.StandsIn w) :
    s.Sliced ts w := by
  obtain ⟨u, core, rfl, hu, hcore, hwhole⟩ := h
  have hword : ts = (before ++ u) ++ (core ++ after) := by simpa using hts
  subst hword
  have hbrackets := d.bracketed_statement
  have hstart : s.span.RunsOver (u ++ core) → u = [] := by
    rintro ⟨⟨first, hfirst, hstart⟩, -⟩
    cases u with
    | nil => rfl
    | cons t u =>
        obtain rfl : t = first := by simpa using hfirst
        simp only [List.map_append, List.map_cons, Span.row_append, Span.row_cons] at hrow
        obtain ⟨_, ⟨_, -, -, hsome, hu⟩, _, hcores, -⟩ := hrow
        have hlow := (hcore.bounds hcores).1
        have hle := hu.le
        omega
  refine ⟨⟨d, hd⟩, ?_, fun hne => ?_, ?_⟩
  · obtain ⟨t, ht, hstop⟩ := hcore.stop
    refine ⟨t, ?_, hstop⟩
    rw [List.getLast?_append, Option.mem_def.mp ht]
    rfl
  · obtain rfl := hwhole hne
    exact hcore
  · rw [hcore.tokens_eq hrow]
    constructor
    · intro hruns
      obtain rfl := hstart hruns
      exact hbrackets
    · intro hb
      have hnesting := hbrackets.nesting
      rw [nesting_append, hb.nesting, nesting_opening hu] at hnesting
      obtain rfl : u = [] := List.eq_nil_of_length_eq_zero (by omega)
      exact hcore

theorem Expr.rereads_iff (hsize : source.utf8ByteSize ≤ maxOffset)
    (hitems : (TokenStream.ofSource source).items = ts.map .ok) {e : Expr} (h : e.ReadIn ts) :
    e.Rereads source ↔ Bracketed (e.span.tokens ts) := by
  obtain ⟨before, core, after, rfl, hcore, hderives⟩ := h
  obtain ⟨hrow, -⟩ := TokenStream.row_of_items hsize hitems
  rw [hcore.span.tokens_eq hrow]
  have hne := hcore.span.ne_nil
  obtain ⟨piece, hslice, us, hus, hshapes⟩ := TokenStream.exists_slice_between hsize hne hitems
    (hcore.last _ (List.getLast?_eq_some_getLast hne))
  rw [← hcore.span.start_eq, ← hcore.span.stop_eq] at hslice
  constructor
  · rintro ⟨piece', e', s, hslice', hparse, -⟩
    obtain rfl : piece = piece' := Option.some.inj (hslice.symm.trans hslice')
    obtain ⟨us', d, hus', hd⟩ := Program.derivation_of_parse hparse
    obtain rfl : us = us' :=
      (List.map_inj_right fun _ _ => Except.ok.inj).mp (hus.symm.trans hus')
    obtain ⟨d, hd⟩ := d.statement_of_program hd
    obtain ⟨v, stop, rfl, d, -⟩ := d.expression_of_statement hd
    rw [List.map_append] at hshapes
    have hsettled : Settled 0 v := d.nests
    exact hsettled.bracketed.of_shapes (List.append_inj' hshapes rfl).1
  · intro hb
    obtain ⟨d, hd⟩ := hderives hb
    let stop : Token := ⟨.semicolon, ";", .point 0⟩
    have hread := (Derivation.expression stop rfl d).ofItems_statement rfl 0
    have hsame : us.map shape = (core ++ [stop]).map shape := by
      rw [List.map_append]
      exact hshapes
    obtain ⟨⟨ss⟩, hparse, hbare⟩ := Program.ofItems_of_shapes hread hsame
      (clampOffset (String.ofList (piece ++ [';'])).utf8ByteSize)
    simp only [Program.bare, Program.mapSpans, Program.mk.injEq] at hbare
    obtain ⟨st, rfl, hst⟩ := List.map_eq_singleton_iff.mp hbare
    rw [← hus] at hparse
    cases st with
    | expression e' s => exact ⟨piece, e', s, hslice, hparse, hd ▸ (Statement.expression.inj hst).1⟩
    | define | function | comment => cases hst

end Source

/-- The statements of a program stand one after the other in its word. -/
theorem Derivation.sliced_statements {ts : List Token} {hi : Nat}
    (hrow : Span.Row 0 (ts.map (·.span)) hi) :
    {w : List Token} → (d : Derivation .program w) → {before : List Token} → ts = before ++ w →
      (∃ words : List (List Token), w = words.flatten ∧
        List.Forall₂ (Statement.Sliced ts) words d.meaning) ∧
      ∀ s ∈ (d.meaning : List Statement), ∀ e ∈ s.nodes, e.ReadIn ts
  | _, .noStatement, _, _ => ⟨⟨[], rfl, .nil⟩, List.forall_mem_nil _⟩
  | _, .nextStatement (u := u) (v := v) first others, before, hts => by
      have hfirst : u <:+: ts := ⟨before, v, by rw [hts, List.append_assoc]⟩
      obtain ⟨hstands, hnodes⟩ := first.sliced (hrow.inOrder.mono hfirst)
      obtain ⟨⟨words, hwords, hall⟩, hlater⟩ := others.sliced_statements hrow
        (show ts = (before ++ u) ++ v by rw [hts, List.append_assoc])
      have hsliced := Statement.sliced_of_standsIn hrow hts first rfl hstands
      refine ⟨⟨u :: words, by rw [hwords]; rfl, .cons hsliced hall⟩, ?_⟩
      exact List.forall_mem_cons.mpr ⟨fun e he => (hnodes e he).mono hfirst, hlater⟩

/-- Where all offsets can be recorded, the brackets at the span of an expression of a program that
was read tell whether the source there is the expression again, and those at the span of a statement
whether it starts with the statement. -/
theorem Program.sliced_of_parse {source : String} {p : Program}
    (hsize : source.utf8ByteSize < 2 ^ 32) (h : Program.parse source = .ok p) :
    ∃ ts : List Token, (TokenStream.ofSource source).items = ts.map .ok ∧ p.Sliced source ts := by
  obtain ⟨ts, d, hitems, hd⟩ := Program.derivation_of_parse h
  have hmax : source.utf8ByteSize ≤ maxOffset := Nat.le_of_lt_succ hsize
  obtain ⟨hrow, -⟩ := TokenStream.row_of_items hmax hitems
  obtain ⟨hstatements, hnodes⟩ := d.sliced_statements hrow (List.nil_append ts).symm
  rw [hd] at hstatements hnodes
  refine ⟨ts, hitems, hstatements, fun e he => ?_⟩
  obtain ⟨s, hs, he⟩ := List.mem_flatMap.mp he
  exact Expr.rereads_iff hmax hitems (hnodes s hs e he)

/-- The left operand stands in parentheses, and the spans of the sum and of the statement start
inside of them. -/
private def summed : Expr := .binary .add (.ident "x" ⟨1, 2⟩) (.ident "y" ⟨6, 7⟩) ⟨1, 7⟩

private def summedSource : String := "(x) + y;"

private def summedTokens : List Token :=
  [⟨.leftParen, "(", ⟨0, 1⟩⟩, ⟨.identifier, "x", ⟨1, 2⟩⟩, ⟨.rightParen, ")", ⟨2, 3⟩⟩,
    ⟨.arithOp, "+", ⟨4, 5⟩⟩, ⟨.identifier, "y", ⟨6, 7⟩⟩, ⟨.semicolon, ";", ⟨7, 8⟩⟩]

theorem Program.sliced_of_parse_grouped :
    summedSource.utf8ByteSize < 2 ^ 32 ∧
      Program.parse summedSource = .ok ⟨[.expression summed ⟨1, 8⟩]⟩ ∧
      (⟨[.expression summed ⟨1, 8⟩]⟩ : Program).Sliced summedSource summedTokens ∧
      ¬ (Statement.expression summed ⟨1, 8⟩).span.RunsOver summedTokens ∧
      ¬ summed.Rereads summedSource ∧ (Expr.ident "x" ⟨1, 2⟩).Rereads summedSource := by
  have hsize : summedSource.utf8ByteSize < 2 ^ 32 := by decide
  have hitems : (TokenStream.ofSource summedSource).items = summedTokens.map .ok := by
    decide +kernel
  have hparse : Program.parse summedSource = .ok ⟨[.expression summed ⟨1, 8⟩]⟩ := by
    rw [Program.parse, Program.ofStream, hitems]
    rfl
  obtain ⟨ts, hts, hsliced⟩ := Program.sliced_of_parse hsize hparse
  obtain rfl := (List.map_inj_right fun _ _ => Except.ok.inj).mp (hitems.symm.trans hts)
  refine ⟨hsize, hparse, hsliced, ?_, ?_, ?_⟩
  · obtain ⟨words, hwords, hall⟩ := hsliced.statements
    obtain ⟨w, _, hstatement, hnone, rfl⟩ := List.forall₂_cons_right_iff.mp hall
    obtain rfl := List.forall₂_nil_right_iff.mp hnone
    obtain rfl : summedTokens = w := by simpa using hwords
    intro hruns
    have hnesting := (hstatement.runsOver_iff.mp hruns).nesting
    revert hnesting
    decide
  · intro hrereads
    have hnesting := ((hsliced.nodes summed List.mem_cons_self).mp hrereads).nesting
    revert hnesting
    decide
  · refine (hsliced.nodes _ (List.mem_cons_of_mem _ List.mem_cons_self)).mpr ⟨by decide, ?_⟩
    intro v hv
    have hx : v <+: [⟨.identifier, "x", ⟨1, 2⟩⟩] := hv
    rcases List.prefix_cons_iff.mp hx with rfl | ⟨rest, rfl, hrest⟩
    · decide
    · obtain rfl := List.prefix_nil.mp hrest
      decide

end Clausal
