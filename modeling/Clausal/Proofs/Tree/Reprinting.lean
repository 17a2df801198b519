import Mathlib.Data.List.Basic
import Clausal.Proofs.Tree.Guards

/-!
What printing does to a program that was read from a source. Such a program is well-formed, so
printing and reading it again loses nothing but guards: a guard whose parentheses are not printed
and that starts with the name `_` turns into something else. This is the only loss, and it always
is one.
-/

namespace Clausal

open Token

namespace Phrase

/-- What holds of the meaning of a word whose tokens were read from a source. -/
def WellFormed : (s : Phrase) → s.Meaning → Prop
  | level _ | primary => Expr.WellFormed
  | chain _ => fun m => ∀ x ∈ m, Expr.WellFormed x.2
  | calls => fun m => ∀ x ∈ m, ∀ e ∈ x.1, Expr.WellFormed e
  | arguments => fun m => ∀ e ∈ m.1, Expr.WellFormed e
  | expressions => fun m => m ≠ [] ∧ ∀ e ∈ m, Expr.WellFormed e
  | names | parameters | binders => fun m => ∀ p ∈ m, Spelled .identifier p.name
  | clause => Clause.WellFormed
  | clauses => fun m => ∀ c ∈ m, Clause.WellFormed c
  | types => fun m => ∀ t ∈ m.1 ++ [m.2], Spelled .typeName t ∨ Spelled .identifier t
  | body => fun m => m.toExpr.WellFormed
  | statement => Statement.WellFormed
  | program => fun m => ∀ s ∈ m, Statement.WellFormed s

end Phrase

theorem Match.wellFormed_ofExpr {e : Expr} (h : e.WellFormed) :
    (Match.ofExpr e).toExpr.WellFormed := by
  cases e with
  | matching params clauses s => exact h
  | _ =>
      simpa [Match.ofExpr, Match.always, Match.toExpr, Expr.WellFormed, Clause.WellFormed] using h

namespace Derivation

theorem wellFormed_applyChain {left : Expr} {chain : List (BinaryOp × Expr)}
    (hleft : left.WellFormed) (hchain : ∀ x ∈ chain, x.2.WellFormed) :
    (applyChain left chain).WellFormed := by
  induction chain generalizing left with
  | nil => exact hleft
  | cons x chain ih =>
      obtain ⟨hx, hmore⟩ := List.forall_mem_cons.mp hchain
      exact ih ⟨hleft, hx⟩ hmore

theorem wellFormed_applyCalls {callee : Expr} {calls : List (List Expr × Span)}
    (hcallee : callee.WellFormed) (hcalls : ∀ x ∈ calls, ∀ e ∈ x.1, e.WellFormed) :
    (applyCalls callee calls).WellFormed := by
  induction calls generalizing callee with
  | nil => exact hcallee
  | cons x calls ih =>
      obtain ⟨hx, hmore⟩ := List.forall_mem_cons.mp hcalls
      exact ih ⟨hcallee, (Expr.allWellFormed_iff _).mpr hx⟩ hmore

theorem spelled_of_kind {t : Token} (ht : t.kind = .typeName ∨ t.kind = .identifier)
    (h : Spelled t.kind t.text) : Spelled .typeName t.text ∨ Spelled .identifier t.text := by
  rcases ht with ht | ht
  · exact .inl (ht ▸ h)
  · exact .inr (ht ▸ h)

/-- Tokens that were read from a source make up well-formed trees. -/
theorem wellFormed {s : Phrase} {w : List Token} (d : Derivation s w)
    (hw : ∀ t ∈ w, Spelled t.kind t.text) : s.WellFormed d.meaning := by
  induction d with
  | number t ht finite =>
      have hspelled := hw t (by simp)
      exact ⟨ht ▸ hspelled, by simp [Literal.numberValue?, finite]⟩
  | string t ht =>
      have hspelled := hw t (by simp)
      exact ⟨ht ▸ hspelled, rfl⟩
  | boolean t ht =>
      have hspelled := hw t (by simp)
      exact ⟨ht ▸ hspelled, rfl⟩
  | ident t ht =>
      have hspelled := hw t (by simp)
      rwa [ht] at hspelled
  | grouping opening closing ho hc inner ih =>
      simp only [List.forall_mem_cons, List.forall_mem_append] at hw
      exact ih hw.2.1
  | tuple opening comma closing ho hm hc first others ihf iho =>
      simp only [List.forall_mem_cons, List.forall_mem_append] at hw
      obtain ⟨hne, hothers⟩ := iho hw.2.2.2.1
      refine ⟨?_, (Expr.allWellFormed_iff _).mpr (List.forall_mem_cons.mpr ⟨ihf hw.2.1, hothers⟩)⟩
      have hlen : 0 < (others.meaning).length := List.length_pos_iff.mpr hne
      exact Nat.succ_le_succ hlen
  | matching keyword opening closing hk ho hc params clauses ihp ihc =>
      simp only [List.forall_mem_cons, List.forall_mem_append] at hw
      exact ⟨ihp hw.2.1, (Clause.allWellFormed_iff _).mpr (ihc hw.2.2.2.1)⟩
  | called callee others ihc iho =>
      simp only [List.forall_mem_append] at hw
      exact wellFormed_applyCalls (ihc hw.1) (iho hw.2)
  | unary t op ht operand ih =>
      simp only [List.forall_mem_cons] at hw
      exact ih hw.2
  | operations first others ihf iho =>
      simp only [List.forall_mem_append] at hw
      exact wellFormed_applyChain (ihf hw.1) (iho hw.2)
  | operation t op ht level operand others ih iho =>
      simp only [List.forall_mem_cons, List.forall_mem_append] at hw
      exact List.forall_mem_cons.mpr ⟨ih hw.2.1, iho hw.2.2⟩
  | noOperation | noCall | noClause | noStatement => exact fun _ hx => absurd hx List.not_mem_nil
  | noArguments | noParameters => exact fun _ hx => absurd hx List.not_mem_nil
  | call args others ih iho =>
      simp only [List.forall_mem_append] at hw
      exact List.forall_mem_cons.mpr ⟨ih hw.1, iho hw.2⟩
  | someArguments opening closing ho hc args ih =>
      simp only [List.forall_mem_cons, List.forall_mem_append] at hw
      exact (ih hw.2.1).2
  | lastExpression e ih => exact ⟨List.cons_ne_nil _ _, List.forall_mem_singleton.mpr (ih hw)⟩
  | nextExpression comma hm e others ih iho =>
      simp only [List.forall_mem_cons, List.forall_mem_append] at hw
      exact ⟨List.cons_ne_nil _ _, List.forall_mem_cons.mpr ⟨ih hw.1, (iho hw.2.2).2⟩⟩
  | lastName t ht | oneBinder t ht => exact List.forall_mem_singleton.mpr (ht ▸ hw t (by simp))
  | nextName t comma ht hm others ih =>
      simp only [List.forall_mem_cons] at hw
      exact List.forall_mem_cons.mpr ⟨ht ▸ hw.1, ih hw.2.2⟩
  | someParameters opening closing ho hc names ih =>
      simp only [List.forall_mem_cons, List.forall_mem_append] at hw
      exact ih hw.2.1
  | enclosedBinders params ih => exact ih hw
  | blank keyword name arrow stop hk hn ha hs result ih =>
      simp only [List.forall_mem_cons, List.forall_mem_append] at hw
      exact ih hw.2.2.2.1
  | otherwise keyword arrow stop hk ha hs result ih =>
      simp only [List.forall_mem_cons, List.forall_mem_append] at hw
      exact ih hw.2.2.1
  | guarded keyword arrow stop hk ha hs condition named result ihc ihr =>
      simp only [List.forall_mem_cons, List.forall_mem_append] at hw
      exact ⟨ihc hw.2.1, ihr hw.2.2.2.1⟩
  | remark t ht others ih =>
      simp only [List.forall_mem_cons] at hw
      exact ih hw.2
  | nextClause first others ihf iho | nextStatement first others ihf iho =>
      simp only [List.forall_mem_append] at hw
      exact List.forall_mem_cons.mpr ⟨ihf hw.1, iho hw.2⟩
  | lastType t ht =>
      exact List.forall_mem_singleton.mpr (spelled_of_kind ht (hw t (by simp)))
  | nextType t comma ht hm others ih =>
      simp only [List.forall_mem_cons] at hw
      exact List.forall_mem_cons.mpr ⟨spelled_of_kind ht hw.1, ih hw.2.2⟩
  | sugared assign ha params result ihp ihr =>
      simp only [List.forall_mem_cons, List.forall_mem_append] at hw
      exact ⟨ihp hw.1, ihr hw.2.2, trivial⟩
  | plain assign ha result ih =>
      simp only [List.forall_mem_cons] at hw
      exact Match.wellFormed_ofExpr (ih hw.2)
  | comment t ht =>
      have hspelled := hw t (by simp)
      rwa [ht] at hspelled
  | function opening closing name stop ho hc hn hs types body iht ihb =>
      simp only [List.forall_mem_cons, List.forall_mem_append] at hw
      exact ⟨iht hw.2.1, hn ▸ hw.2.2.2.1, rfl, ihb hw.2.2.2.2.1⟩
  | define type name assign stop ht hn ha hs init ih =>
      simp only [List.forall_mem_cons, List.forall_mem_append] at hw
      exact ⟨ht ▸ hw.1, hn ▸ hw.2.1, ih hw.2.2.2.1⟩
  | expression stop hs e ih =>
      simp only [List.forall_mem_append] at hw
      exact ih hw.1

end Derivation

theorem Program.derivation_of_parse {source : String} {p : Program}
    (h : Program.parse source = .ok p) :
    ∃ ts, ∃ d : Derivation .program ts,
      (TokenStream.ofSource source).items = ts.map .ok ∧ d.meaning = p.statements := by
  obtain ⟨ts, d, hitems, hd⟩ := Program.derivation_of_ofItems h
  exact ⟨ts, d, hitems, hd⟩

theorem Program.wellFormed_of_parse {source : String} {p : Program}
    (h : Program.parse source = .ok p) : p.WellFormed := by
  obtain ⟨ts, d, hitems, hd⟩ := Program.derivation_of_parse h
  have hspelled : ∀ t ∈ ts, Spelled t.kind t.text := by
    intro t ht
    have hmem : .ok t ∈ (TokenStream.ofSource source).items := by
      rw [hitems]
      exact List.mem_map_of_mem ht
    exact spelled_of_mem_items hmem
  have hmeaning := d.wellFormed hspelled
  rw [hd] at hmeaning
  exact hmeaning

/-- The guards of a well-formed program that are still there when its text is read. -/
theorem Program.WellFormed.length_guards_of_parse_print {p q : Program} (h : p.WellFormed)
    (hq : Program.parse p.print = .ok q) :
    q.guards.length + p.guards.countP (·.opensBlank) = p.guards.length := by
  obtain ⟨ts, hitems, hshapes⟩ := h.items_print
  obtain ⟨us, d, hitems', hd⟩ := Program.derivation_of_parse hq
  obtain rfl : ts = us := by
    have hmap := hitems.symm.trans hitems'
    exact (List.map_inj_right fun _ _ => Except.ok.inj).mp hmap
  have hread := d.marks_eq []
  have hprinted := h.counted []
  rw [hshapes, hd] at hread
  rw [hread] at hprinted
  exact hprinted

/-- A program that was read from a source can be printed and read again without loss exactly if
no guard of it is printed with the name `_` in front. -/
theorem Program.reparses_iff {source : String} {p : Program} (h : Program.parse source = .ok p) :
    (∃ q, Program.parse p.print = .ok q ∧ q.bare = p.bare) ↔ p.GuardsClear := by
  have hp := Program.wellFormed_of_parse h
  constructor
  · rintro ⟨q, hq, hbare⟩
    have hcount := hp.length_guards_of_parse_print hq
    have hlength := congrArg (fun r => (Program.guards r).length) hbare
    simp only [Program.guards_bare, List.length_map] at hlength
    have hnone : p.guards.countP (·.opensBlank) = 0 := by omega
    simpa [Program.GuardsClear, List.countP_eq_zero] using hnone
  · intro hclear
    obtain ⟨ts, hitems, hshapes⟩ := hp.items_print
    obtain ⟨d, hd⟩ := hp.derives hclear ts hshapes
    exact ⟨⟨d.meaning⟩, Program.parse_eq_ok hitems d, congrArg Program.mk hd⟩

/-- A guard that is the name `_`, in parentheses. -/
def enclosedBlank : Program :=
  ⟨[.expression (.matching [⟨"x", ⟨6, 7⟩⟩]
    [.guarded (.ident "_" ⟨16, 17⟩) (.ident "y" ⟨22, 23⟩) ⟨10, 24⟩] ⟨0, 26⟩) ⟨0, 27⟩]⟩

theorem reparses_iff_enclosedBlank :
    Program.parse "match x \x7b when (_) -> y; \x7d;" = .ok enclosedBlank ∧
      ¬ ∃ q, Program.parse enclosedBlank.print = .ok q ∧ q.bare = enclosedBlank.bare := by
  have hitems : (TokenStream.ofSource "match x \x7b when (_) -> y; \x7d;").items =
      [.ok ⟨.keyword, "match", ⟨0, 5⟩⟩, .ok ⟨.identifier, "x", ⟨6, 7⟩⟩,
        .ok ⟨.leftBrace, "\x7b", ⟨8, 9⟩⟩, .ok ⟨.keyword, "when", ⟨10, 14⟩⟩,
        .ok ⟨.leftParen, "(", ⟨15, 16⟩⟩, .ok ⟨.identifier, "_", ⟨16, 17⟩⟩,
        .ok ⟨.rightParen, ")", ⟨17, 18⟩⟩, .ok ⟨.arrow, "->", ⟨19, 21⟩⟩,
        .ok ⟨.identifier, "y", ⟨22, 23⟩⟩, .ok ⟨.semicolon, ";", ⟨23, 24⟩⟩,
        .ok ⟨.rightBrace, "\x7d", ⟨25, 26⟩⟩, .ok ⟨.semicolon, ";", ⟨26, 27⟩⟩] := by
    decide +kernel
  have hparse : Program.parse "match x \x7b when (_) -> y; \x7d;" = .ok enclosedBlank := by
    rw [Program.parse, Program.ofStream, hitems]
    rfl
  have hblank : Expr.opensBlank (.ident "_" ⟨16, 17⟩) = true := by decide +kernel
  refine ⟨hparse, fun hq => ?_⟩
  have hclear := (Program.reparses_iff hparse).mp hq
  have hnot := hclear _ (List.mem_singleton.mpr rfl)
  rw [hblank] at hnot
  contradiction

end Clausal
