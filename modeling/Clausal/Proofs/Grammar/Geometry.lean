import Clausal.Proofs.Tree.Frames
import Clausal.Proofs.Tree.Reprinting

/-!
Where the spans of a program lie. The tokens of a source stand in a row. A word of them that makes
up a phrase takes a stretch of this row, and the tree that it stands for keeps to the stretch: a
node reaches from one token or node of it to a later one, so it frames what stands between. Only
the match that a body is wrapped in stands where something else does.
-/

namespace Clausal

open Clausal.Span

/-- The token lies in the source, where its span selects its text. -/
structure Token.Lies (source : String) (t : Token) : Prop where
  inside : t.span.stop ≤ source.utf8ByteSize
  text : t.span.Selects source t.text

/-- A token that was read lies in the source and holds nothing. -/
theorem Token.Lies.frames {source : String} {lo hi : Nat} {t : Token} (h : t.Lies source)
    (hrow : Row lo [t.span] hi) : t.span.Frames source [] := by
  obtain ⟨-, hsome, -⟩ := hrow
  exact .of_row hsome h.inside (Nat.le_of_lt hsome)

namespace TokenStream

open Text

/-- The items of a text lie one behind the other, from its start to its end. -/
theorem Laid.row {offset : Nat} {cs : List Char} {items : List Token.Item}
    (h : Laid offset cs items) (hmax : offset + byteLength cs ≤ maxOffset) :
    Row offset (items.map (·.span)) (offset + byteLength cs) := by
  induction h with
  | nothing => exact Nat.le_refl _
  | @blank offset c cs items hc later ih =>
      rw [byteLength_cons, ← Nat.add_assoc] at hmax ⊢
      exact (ih hmax).mono (Nat.le_add_right _ _) (Nat.le_refl _)
  | @piece offset piece cs item items some shows later ih =>
      have hpos := byteLength_pos some
      rw [byteLength_append, ← Nat.add_assoc] at hmax ⊢
      rw [List.map_cons, shows.span, Span.ofRange, clampOffset_of_le (by omega),
        clampOffset_of_le (by omega)]
      exact ⟨Nat.le_refl _, Nat.lt_add_of_pos_right hpos, ih hmax⟩

/-- The tokens of a source stand in a row, and each of them lies in it. -/
theorem row_of_items {source : String} {ts : List Token} (hmax : source.utf8ByteSize ≤ maxOffset)
    (hitems : (ofSource source).items = ts.map .ok) :
    Row 0 (ts.map (·.span)) source.utf8ByteSize ∧ ∀ t ∈ ts, t.Lies source := by
  have hlength := byteLength_toList source
  have hlaid : Laid 0 source.toList (ts.map .ok) := hitems ▸ laid_items source
  have hrow := hlaid.row (by omega)
  rw [List.map_map, Nat.zero_add, hlength] at hrow
  refine ⟨hrow, fun t ht => ⟨(hrow.bounds _ (List.mem_map_of_mem ht)).2, ?_⟩⟩
  have hmem : .ok t ∈ (ofSource source).items := hitems ▸ List.mem_map_of_mem ht
  obtain ⟨piece, hslice, -, hshows⟩ := exists_slice hmax hmem
  have htext := hshows.text t rfl
  rw [Selects, htext, String.toList_ofList]
  exact hslice

end TokenStream

namespace Phrase

/-- What holds of the meaning of a word that takes a stretch of the source. -/
def Framed (source : String) (lo hi : Nat) : (s : Phrase) → s.Meaning → Prop
  | level _ | primary => fun e => Row lo [Expr.span e] hi ∧ Expr.Framed source e
  | chain _ => fun m => Row lo (m.map (·.2.span)) hi ∧ ∀ x ∈ m, Expr.Framed source x.2
  | calls => fun m => Row lo (m.flatMap fun x => x.1.map (·.span) ++ [x.2]) hi ∧
      ∀ x ∈ m, (∀ e ∈ x.1, Expr.Framed source e) ∧ x.2.stop ≤ source.utf8ByteSize
  | arguments => fun m => Row lo (m.1.map (·.span) ++ [m.2]) hi ∧
      (∀ e ∈ m.1, Expr.Framed source e) ∧ m.2.stop ≤ source.utf8ByteSize
  | expressions => fun m => Row lo (m.map (·.span)) hi ∧ ∀ e ∈ m, Expr.Framed source e
  | names | parameters | binders => fun m => ∀ p ∈ m, p.span.Selects source p.name
  | clause => fun m => Row lo [Clause.span m] hi ∧ Clause.Framed source m
  | clauses => fun m => Row lo (m.map (·.span)) hi ∧ ∀ c ∈ m, Clause.Framed source c
  | types => fun _ => True
  | body => fun m => Row lo [Match.span m] hi ∧ m.toExpr.Framed source
  | statement => fun m => Row lo [Statement.span m] hi ∧ Statement.Framed source m
  | program => fun m => Row lo (m.map (·.span)) hi ∧ ∀ s ∈ m, Statement.Framed source s

/-- Wherever the tokens of the word lie in a row, what it means keeps to their stretch. -/
def Keeps (source : String) (s : Phrase) (w : List Token) (m : s.Meaning) : Prop :=
  ∀ lo hi, Row lo (w.map (·.span)) hi → (∀ t ∈ w, t.Lies source) → s.Framed source lo hi m

end Phrase

namespace Derivation

variable {source : String} {lo hi : Nat}

/-- Operations that are joined to the left lie in one place each, around what was joined before. -/
theorem framed_applyChain {left : Expr} {chain : List (BinaryOp × Expr)}
    (hrow : Row lo (left.span :: chain.map (·.2.span)) hi) (hleft : left.Framed source)
    (hchain : ∀ x ∈ chain, x.2.Framed source) :
    Row lo [(applyChain left chain).span] hi ∧ (applyChain left chain).Framed source := by
  induction chain generalizing left with
  | nil => exact ⟨hrow, hleft⟩
  | cons x chain ih =>
      obtain ⟨hx, hmore⟩ := List.forall_mem_cons.mp hchain
      have hsplit : Row lo ([left.span, x.2.span] ++ chain.map (·.2.span)) hi := hrow
      obtain ⟨m, hfront, hback⟩ := row_append.mp hsplit
      obtain ⟨hjoined, hframes⟩ := hfront.merge_pair hx.inside (.refl _)
      exact ih (row_append.mpr ⟨m, hjoined, hback⟩) (Expr.framed_binary hframes hleft hx) hmore

/-- Calls one behind the other lie around their callee and their arguments. -/
theorem framed_applyCalls {callee : Expr} {calls : List (List Expr × Span)}
    (hrow : Row lo (callee.span :: calls.flatMap fun x => x.1.map (·.span) ++ [x.2]) hi)
    (hcallee : callee.Framed source)
    (hcalls : ∀ x ∈ calls, (∀ e ∈ x.1, e.Framed source) ∧ x.2.stop ≤ source.utf8ByteSize) :
    Row lo [(applyCalls callee calls).span] hi ∧ (applyCalls callee calls).Framed source := by
  induction calls generalizing callee with
  | nil => exact ⟨hrow, hcallee⟩
  | cons x calls ih =>
      obtain ⟨⟨hargs, hinside⟩, hmore⟩ := List.forall_mem_cons.mp hcalls
      rw [List.flatMap_cons, ← List.cons_append] at hrow
      obtain ⟨m, hfront, hback⟩ := row_append.mp hrow
      obtain ⟨hcalled, hframes⟩ :=
        hfront.merge hinside (.cons_cons _ (List.sublist_append_left _ _))
      exact ih (row_append.mpr ⟨m, hcalled, hback⟩) (Expr.framed_call hframes hcallee hargs) hmore

end Derivation

namespace Phrase

open Clausal.Derivation

variable {source : String} {u v w : List Token} {opening comma closing keyword arrow stop : Token}
  {e e' : Expr} {es : List Expr}

theorem keeps_atom {t : Token} (hparts : e.parts = [e]) (hinner : e.inner = [])
    (hclauses : e.clauses = []) (hspan : e.span = t.span)
    (hquotes : e.quotes = [(t.span, t.text)]) : Keeps source .primary [t] e := by
  intro lo hi hrow hw
  obtain ⟨hlies, -⟩ := List.forall_mem_cons.mp hw
  refine ⟨hspan ▸ hrow, Expr.framed_atom hparts hinner hclauses (hspan ▸ hlies.frames hrow) ?_⟩
  rw [hquotes]
  exact List.forall_mem_singleton.mpr hlies.text

/-- Brackets leave the place of what they enclose as it was. -/
theorem keeps_grouping (inner : Keeps source .expression w e) :
    Keeps source .primary (opening :: (w ++ [closing])) e := by
  intro lo hi hrow hw
  simp only [List.map_cons, List.map_append, List.map_nil, row_cons, row_append, row_nil,
    List.forall_mem_cons, List.forall_mem_append] at hrow hw
  obtain ⟨ho, hosome, m, hinner, hc, hcsome, hhi⟩ := hrow
  obtain ⟨hspan, hframed⟩ := inner _ _ hinner hw.2.1
  exact ⟨hspan.mono (by omega) (by omega), hframed⟩

theorem keeps_tuple (first : Keeps source .expression u e)
    (others : Keeps source .expressions v es) :
    Keeps source .primary (opening :: (u ++ comma :: (v ++ [closing])))
      (.tuple (e :: es) (opening.span.merge closing.span)) := by
  intro lo hi hrow hw
  simp only [List.map_cons, List.map_append, List.map_nil, row_cons, row_append, row_nil,
    List.forall_mem_cons, List.forall_mem_append] at hrow hw
  obtain ⟨ho, hosome, m, hfirst, hm, hmsome, m', hothers, hc⟩ := hrow
  obtain ⟨hspan, hframed⟩ := first _ _ hfirst hw.2.1
  obtain ⟨hspans, hall⟩ := others _ _ hothers hw.2.2.2.1
  have hinner := hspan.cons hspans (by omega)
  obtain ⟨hplace, hframes⟩ :=
    frames_between ho hosome (Nat.le_refl _) hinner hc hw.2.2.2.2.1.inside
  exact ⟨hplace, Expr.framed_tuple hframes (List.forall_mem_cons.mpr ⟨hframed, hall⟩)⟩

theorem keeps_matching {ps : List Ident} {cs : List Clause} (params : Keeps source .binders u ps)
    (clauses : Keeps source .clauses v cs) :
    Keeps source .primary (keyword :: (u ++ opening :: (v ++ [closing])))
      (.matching ps cs (keyword.span.merge closing.span)) := by
  intro lo hi hrow hw
  simp only [List.map_cons, List.map_append, List.map_nil, row_cons, row_append, row_nil,
    List.forall_mem_cons, List.forall_mem_append] at hrow hw
  obtain ⟨hk, hksome, m, hparams, ho, hosome, m', hclauses, hc⟩ := hrow
  have hnames := params _ _ hparams hw.2.1
  obtain ⟨hspans, hall⟩ := clauses _ _ hclauses hw.2.2.2.1
  have hle := hparams.le
  obtain ⟨hplace, hframes⟩ := frames_between hk hksome (by omega) hspans hc hw.2.2.2.2.1.inside
  exact ⟨hplace, Expr.framed_matching hframes hnames hall⟩

/-- A call lies from its callee to its closing bracket. -/
theorem keeps_called {cs : List (List Expr × Span)} (callee : Keeps source .primary u e)
    (others : Keeps source .calls v cs) : Keeps source (.level 0) (u ++ v) (applyCalls e cs) := by
  intro lo hi hrow hw
  simp only [List.map_append, row_append, List.forall_mem_append] at hrow hw
  obtain ⟨m, hcallee, hothers⟩ := hrow
  obtain ⟨hspan, hframed⟩ := callee _ _ hcallee hw.1
  obtain ⟨hspans, hall⟩ := others _ _ hothers hw.2
  exact framed_applyCalls (row_append.mpr ⟨m, hspan, hspans⟩) hframed hall

theorem keeps_unary {t : Token} (op : UnaryOp) (operand : Keeps source (.level 0) w e) :
    Keeps source (.level 0) (t :: w) (.unary op e (t.span.merge e.span)) := by
  intro lo hi hrow hw
  simp only [List.map_cons, row_cons, List.forall_mem_cons] at hrow hw
  obtain ⟨ht, hsome, hoperand⟩ := hrow
  obtain ⟨hspan, hframed⟩ := operand _ _ hoperand hw.2
  have hrow : Row lo [t.span, e.span] hi := ⟨ht, hsome, hspan⟩
  obtain ⟨hplace, hframes⟩ := hrow.merge_pair hframed.inside (.cons _ (.refl _))
  exact ⟨hplace, Expr.framed_unary hframes hframed⟩

theorem keeps_operations {n : Nat} {ops : List (BinaryOp × Expr)}
    (first : Keeps source (.level n) u e) (others : Keeps source (.chain n) v ops) :
    Keeps source (.level (n + 1)) (u ++ v) (applyChain e ops) := by
  intro lo hi hrow hw
  simp only [List.map_append, row_append, List.forall_mem_append] at hrow hw
  obtain ⟨m, hfirst, hothers⟩ := hrow
  obtain ⟨hspan, hframed⟩ := first _ _ hfirst hw.1
  obtain ⟨hspans, hall⟩ := others _ _ hothers hw.2
  exact framed_applyChain (row_append.mpr ⟨m, hspan, hspans⟩) hframed hall

theorem keeps_operation {n : Nat} {t : Token} {op : BinaryOp} {ops : List (BinaryOp × Expr)}
    (operand : Keeps source (.level n) u e) (others : Keeps source (.chain n) v ops) :
    Keeps source (.chain n) (t :: (u ++ v)) ((op, e) :: ops) := by
  intro lo hi hrow hw
  simp only [List.map_cons, List.map_append, row_cons, row_append, List.forall_mem_cons,
    List.forall_mem_append] at hrow hw
  obtain ⟨ht, hsome, m, hoperand, hothers⟩ := hrow
  obtain ⟨hspan, hframed⟩ := operand _ _ hoperand hw.2.1
  obtain ⟨hspans, hall⟩ := others _ _ hothers hw.2.2
  have hplaces := hspan.cons hspans (Nat.le_refl _)
  exact ⟨hplaces.mono (by omega) (Nat.le_refl _), List.forall_mem_cons.mpr ⟨hframed, hall⟩⟩

theorem keeps_call {args : List Expr × Span} {cs : List (List Expr × Span)}
    (hargs : Keeps source .arguments u args) (others : Keeps source .calls v cs) :
    Keeps source .calls (u ++ v) (args :: cs) := by
  intro lo hi hrow hw
  simp only [List.map_append, row_append, List.forall_mem_append] at hrow hw
  obtain ⟨m, hfirst, hothers⟩ := hrow
  obtain ⟨hspans, hall⟩ := hargs _ _ hfirst hw.1
  obtain ⟨hmore, hlater⟩ := others _ _ hothers hw.2
  exact ⟨row_append.mpr ⟨m, hspans, hmore⟩, List.forall_mem_cons.mpr ⟨hall, hlater⟩⟩

theorem keeps_noArguments : Keeps source .arguments [opening, closing] ([], closing.span) := by
  intro lo hi hrow hw
  simp only [List.map_cons, List.map_nil, row_cons, row_nil, List.forall_mem_cons] at hrow hw
  obtain ⟨ho, hosome, hc, hcsome, hhi⟩ := hrow
  have hstart : lo ≤ closing.span.start := by omega
  exact ⟨⟨hstart, hcsome, hhi⟩, List.forall_mem_nil _, hw.2.1.inside⟩

theorem keeps_someArguments (args : Keeps source .expressions w es) :
    Keeps source .arguments (opening :: (w ++ [closing])) (es, closing.span) := by
  intro lo hi hrow hw
  simp only [List.map_cons, List.map_append, List.map_nil, row_cons, row_append, row_nil,
    List.forall_mem_cons, List.forall_mem_append] at hrow hw
  obtain ⟨ho, hosome, m, hargs, hc⟩ := hrow
  obtain ⟨hspans, hall⟩ := args _ _ hargs hw.2.1
  have hplaces : Row lo (es.map (·.span)) m := hspans.mono (by omega) (Nat.le_refl _)
  exact ⟨row_append.mpr ⟨m, hplaces, hc⟩, hall, hw.2.2.1.inside⟩

theorem keeps_lastExpression (he : Keeps source .expression w e) :
    Keeps source .expressions w [e] := by
  intro lo hi hrow hw
  obtain ⟨hspan, hframed⟩ := he _ _ hrow hw
  exact ⟨hspan, List.forall_mem_singleton.mpr hframed⟩

theorem keeps_nextExpression (he : Keeps source .expression u e)
    (others : Keeps source .expressions v es) :
    Keeps source .expressions (u ++ comma :: v) (e :: es) := by
  intro lo hi hrow hw
  simp only [List.map_cons, List.map_append, row_cons, row_append, List.forall_mem_cons,
    List.forall_mem_append] at hrow hw
  obtain ⟨m, hfirst, hm, hmsome, hothers⟩ := hrow
  obtain ⟨hspan, hframed⟩ := he _ _ hfirst hw.1
  obtain ⟨hspans, hall⟩ := others _ _ hothers hw.2.2
  exact ⟨hspan.cons hspans (by omega), List.forall_mem_cons.mpr ⟨hframed, hall⟩⟩

section Names

variable {t : Token} {ps : List Ident}

theorem keeps_lastName : Keeps source .names [t] [⟨t.text, t.span⟩] :=
  fun _ _ _ hw => List.forall_mem_singleton.mpr (hw t List.mem_cons_self).text

theorem keeps_nextName (others : Keeps source .names w ps) :
    Keeps source .names (t :: comma :: w) (⟨t.text, t.span⟩ :: ps) := by
  intro lo hi hrow hw
  simp only [List.map_cons, row_cons, List.forall_mem_cons] at hrow hw
  obtain ⟨-, -, -, -, hothers⟩ := hrow
  exact List.forall_mem_cons.mpr ⟨hw.1.text, others _ _ hothers hw.2.2⟩

theorem keeps_someParameters (names : Keeps source .names w ps) :
    Keeps source .parameters (opening :: (w ++ [closing])) ps := by
  intro lo hi hrow hw
  simp only [List.map_cons, List.map_append, row_cons, row_append, List.forall_mem_cons,
    List.forall_mem_append] at hrow hw
  obtain ⟨-, -, m, hnames, -⟩ := hrow
  exact names _ _ hnames hw.2.1

end Names

section Clauses

theorem keeps_blank {name : Token} (result : Keeps source .expression w e) :
    Keeps source .clause (keyword :: name :: arrow :: (w ++ [stop]))
      (.catchAll e (keyword.span.merge stop.span)) := by
  intro lo hi hrow hw
  simp only [List.map_cons, List.map_append, List.map_nil, row_cons, row_append, row_nil,
    List.forall_mem_cons, List.forall_mem_append] at hrow hw
  obtain ⟨hk, hksome, hn, hnsome, ha, hasome, m, hresult, hs⟩ := hrow
  obtain ⟨hspan, hframed⟩ := result _ _ hresult hw.2.2.2.1
  obtain ⟨hplace, hframes⟩ := frames_between hk hksome (by omega) hspan hs hw.2.2.2.2.1.inside
  exact ⟨hplace, hframes, hframed⟩

theorem keeps_otherwise (result : Keeps source .expression w e) :
    Keeps source .clause (keyword :: arrow :: (w ++ [stop]))
      (.catchAll e (keyword.span.merge stop.span)) := by
  intro lo hi hrow hw
  simp only [List.map_cons, List.map_append, List.map_nil, row_cons, row_append, row_nil,
    List.forall_mem_cons, List.forall_mem_append] at hrow hw
  obtain ⟨hk, hksome, ha, hasome, m, hresult, hs⟩ := hrow
  obtain ⟨hspan, hframed⟩ := result _ _ hresult hw.2.2.1
  obtain ⟨hplace, hframes⟩ := frames_between hk hksome (by omega) hspan hs hw.2.2.2.1.inside
  exact ⟨hplace, hframes, hframed⟩

/-- A condition lies before the result of its clause. -/
theorem keeps_guarded (condition : Keeps source .expression u e)
    (result : Keeps source .expression v e') :
    Keeps source .clause (keyword :: (u ++ arrow :: (v ++ [stop])))
      (.guarded e e' (keyword.span.merge stop.span)) := by
  intro lo hi hrow hw
  simp only [List.map_cons, List.map_append, List.map_nil, row_cons, row_append, row_nil,
    List.forall_mem_cons, List.forall_mem_append] at hrow hw
  obtain ⟨hk, hksome, m, hcondition, ha, hasome, m', hresult, hs⟩ := hrow
  obtain ⟨hguard, hguarded⟩ := condition _ _ hcondition hw.2.1
  obtain ⟨hspan, hframed⟩ := result _ _ hresult hw.2.2.2.1
  obtain ⟨hplace, hframes⟩ := frames_between hk hksome (Nat.le_refl _)
    (hguard.cons hspan (by omega)) hs hw.2.2.2.2.1.inside
  exact ⟨hplace, hframes, List.forall_mem_append.mpr ⟨hguarded, hframed⟩⟩

theorem keeps_remark {t : Token} {cs : List Clause} (others : Keeps source .clauses w cs) :
    Keeps source .clauses (t :: w) cs := by
  intro lo hi hrow hw
  simp only [List.map_cons, row_cons, List.forall_mem_cons] at hrow hw
  obtain ⟨ht, hsome, hothers⟩ := hrow
  obtain ⟨hspans, hall⟩ := others _ _ hothers hw.2
  exact ⟨hspans.mono (by omega) (Nat.le_refl _), hall⟩

theorem keeps_nextClause {c : Clause} {cs : List Clause} (first : Keeps source .clause u c)
    (others : Keeps source .clauses v cs) : Keeps source .clauses (u ++ v) (c :: cs) := by
  intro lo hi hrow hw
  simp only [List.map_append, row_append, List.forall_mem_append] at hrow hw
  obtain ⟨m, hfirst, hothers⟩ := hrow
  obtain ⟨hspan, hframed⟩ := first _ _ hfirst hw.1
  obtain ⟨hspans, hall⟩ := others _ _ hothers hw.2
  exact ⟨row_append.mpr ⟨m, hspan, hspans⟩, List.forall_mem_cons.mpr ⟨hframed, hall⟩⟩

end Clauses

section Statements

variable {assign name : Token}

/-- A function body has the places of its names and of its result. -/
theorem keeps_sugared {ps : List Ident} (params : Keeps source .parameters u ps)
    (result : Keeps source .expression v e) :
    Keeps source .body (u ++ assign :: v) (.always ps e) := by
  intro lo hi hrow hw
  simp only [List.map_cons, List.map_append, row_cons, row_append, List.forall_mem_cons,
    List.forall_mem_append] at hrow hw
  obtain ⟨m, hparams, ha, hasome, hresult⟩ := hrow
  have hnames := params _ _ hparams hw.1
  obtain ⟨hspan, hframed⟩ := result _ _ hresult hw.2.2
  have hle := hparams.le
  exact ⟨hspan.mono (by omega) (Nat.le_refl _), Match.framed_always hnames hframed⟩

theorem keeps_plain (result : Keeps source .expression w e) :
    Keeps source .body (assign :: w) (.ofExpr e) := by
  intro lo hi hrow hw
  simp only [List.map_cons, row_cons, List.forall_mem_cons] at hrow hw
  obtain ⟨ha, hasome, hresult⟩ := hrow
  obtain ⟨hspan, hframed⟩ := result _ _ hresult hw.2
  refine ⟨?_, Match.framed_ofExpr hframed⟩
  rw [Match.span_ofExpr]
  exact hspan.mono (by omega) (Nat.le_refl _)

theorem keeps_comment {t : Token} : Keeps source .statement [t] (.comment t.text t.span) := by
  intro lo hi hrow hw
  obtain ⟨hlies, -⟩ := List.forall_mem_cons.mp hw
  exact ⟨hrow, hlies.frames hrow, List.forall_mem_nil _⟩

theorem keeps_function {m : Match} (types : List String) (returnType : String)
    (body : Keeps source .body v m) :
    Keeps source .statement (opening :: (u ++ closing :: name :: (v ++ [stop])))
      (.function ⟨name.text, types, returnType, m.paramNames, m⟩
        (opening.span.merge stop.span)) := by
  intro lo hi hrow hw
  simp only [List.map_cons, List.map_append, List.map_nil, row_cons, row_append, row_nil,
    List.forall_mem_cons, List.forall_mem_append] at hrow hw
  obtain ⟨ho, hosome, m, htypes, hc, hcsome, hn, hnsome, m', hbody, hs⟩ := hrow
  obtain ⟨hspan, hframed⟩ := body _ _ hbody hw.2.2.2.2.1
  have hle := htypes.le
  obtain ⟨hplace, hframes⟩ := frames_between ho hosome (by omega) hspan hs hw.2.2.2.2.2.1.inside
  exact ⟨hplace, hframes, hframed⟩

theorem keeps_define {type : Token} (init : Keeps source .expression w e) :
    Keeps source .statement (type :: name :: assign :: (w ++ [stop]))
      (.define type.text name.text e (type.span.merge stop.span)) := by
  intro lo hi hrow hw
  simp only [List.map_cons, List.map_append, List.map_nil, row_cons, row_append, row_nil,
    List.forall_mem_cons, List.forall_mem_append] at hrow hw
  obtain ⟨ht, htsome, hn, hnsome, ha, hasome, m, hinit, hs⟩ := hrow
  obtain ⟨hspan, hframed⟩ := init _ _ hinit hw.2.2.2.1
  obtain ⟨hplace, hframes⟩ := frames_between ht htsome (by omega) hspan hs hw.2.2.2.2.1.inside
  exact ⟨hplace, hframes, hframed⟩

/-- The span of an expression statement starts where the expression does, which may be behind an
opening parenthesis. -/
theorem keeps_expressionStatement (he : Keeps source .expression w e) :
    Keeps source .statement (w ++ [stop]) (.expression e (e.span.merge stop.span)) := by
  intro lo hi hrow hw
  simp only [List.map_append, row_append, List.forall_mem_append] at hrow hw
  obtain ⟨m, hfirst, hs⟩ := hrow
  obtain ⟨hspan, hframed⟩ := he _ _ hfirst hw.1
  have hrow : Row lo [e.span, stop.span] hi := row_append.mpr ⟨m, hspan, hs⟩
  obtain ⟨hplace, hframes⟩ := hrow.merge_pair (hw.2 stop List.mem_cons_self).inside
    (.cons_cons _ (List.nil_sublist _))
  exact ⟨hplace, hframes, hframed⟩

theorem keeps_nextStatement {s : Statement} {ss : List Statement}
    (first : Keeps source .statement u s) (others : Keeps source .program v ss) :
    Keeps source .program (u ++ v) (s :: ss) := by
  intro lo hi hrow hw
  simp only [List.map_append, row_append, List.forall_mem_append] at hrow hw
  obtain ⟨m, hfirst, hothers⟩ := hrow
  obtain ⟨hspan, hframed⟩ := first _ _ hfirst hw.1
  obtain ⟨hspans, hall⟩ := others _ _ hothers hw.2
  exact ⟨row_append.mpr ⟨m, hspan, hspans⟩, List.forall_mem_cons.mpr ⟨hframed, hall⟩⟩

end Statements

end Phrase

namespace Derivation

open Phrase

/-- A tree keeps to the stretch of the row that its word takes. -/
theorem keeps (source : String) {s : Phrase} {w : List Token} (d : Derivation s w) :
    s.Keeps source w d.meaning := by
  induction d with
  | number | string | boolean | ident => exact keeps_atom rfl rfl rfl rfl rfl
  | grouping _ _ _ _ _ ih => exact keeps_grouping ih
  | tuple _ _ _ _ _ _ _ _ ih ihs => exact keeps_tuple ih ihs
  | matching _ _ _ _ _ _ _ _ ihp ihc => exact keeps_matching ihp ihc
  | called _ _ ih ihs => exact keeps_called ih ihs
  | unary _ op _ _ ih => exact keeps_unary op ih
  | operations _ _ ih ihs => exact keeps_operations ih ihs
  | noOperation | noCall | noClause | noStatement =>
      exact fun _ _ hrow _ => ⟨hrow, List.forall_mem_nil _⟩
  | operation _ _ _ _ _ _ ih ihs => exact keeps_operation ih ihs
  | call _ _ ih ihs => exact keeps_call ih ihs
  | noArguments => exact keeps_noArguments
  | someArguments _ _ _ _ _ ih => exact keeps_someArguments ih
  | lastExpression _ ih => exact keeps_lastExpression ih
  | nextExpression _ _ _ _ ih ihs => exact keeps_nextExpression ih ihs
  | lastName | oneBinder => exact keeps_lastName
  | nextName _ _ _ _ _ ih => exact keeps_nextName ih
  | noParameters => exact fun _ _ _ _ => List.forall_mem_nil _
  | someParameters _ _ _ _ _ ih => exact keeps_someParameters ih
  | enclosedBinders _ ih => exact ih
  | blank _ _ _ _ _ _ _ _ _ ih => exact keeps_blank ih
  | otherwise _ _ _ _ _ _ _ ih => exact keeps_otherwise ih
  | guarded _ _ _ _ _ _ _ _ _ ihc ihr => exact keeps_guarded ihc ihr
  | remark _ _ _ ih => exact keeps_remark ih
  | nextClause _ _ ih ihs => exact keeps_nextClause ih ihs
  | lastType | nextType => exact fun _ _ _ _ => trivial
  | sugared _ _ _ _ ihp ihr => exact keeps_sugared ihp ihr
  | plain _ _ _ ih => exact keeps_plain ih
  | comment => exact keeps_comment
  | function _ _ _ _ _ _ _ _ types _ _ ih =>
      exact keeps_function types.meaning.1 types.meaning.2 ih
  | define _ _ _ _ _ _ _ _ _ ih => exact keeps_define ih
  | expression _ _ _ ih => exact keeps_expressionStatement ih
  | nextStatement _ _ ih ihs => exact keeps_nextStatement ih ihs

end Derivation

structure Program.Framed (source : String) (p : Program) : Prop where
  ordered : p.statements.Pairwise fun a b => a.span.stop ≤ b.span.start
  statements : ∀ s ∈ p.statements, s.span.Frames source s.inner
  parts : ∀ e ∈ p.parts, e.span.Frames source e.inner
  clauses : ∀ e ∈ p.parts, ∀ c ∈ e.clauses, c.span.Frames source c.inner
  quotes : ∀ e ∈ p.parts, ∀ q ∈ e.quotes, q.1.Selects source q.2

/-- Where all offsets can be recorded, every span of a program that was read frames the spans right
under it, and the names and literals stand at their spans. -/
theorem Program.framed_of_parse {source : String} {p : Program}
    (hsize : source.utf8ByteSize < 2 ^ 32) (h : Program.parse source = .ok p) :
    p.Framed source := by
  obtain ⟨ts, d, hitems, hd⟩ := Program.derivation_of_parse h
  obtain ⟨hrow, hlies⟩ := TokenStream.row_of_items (Nat.le_of_lt_succ hsize) hitems
  obtain ⟨hspans, hall⟩ := d.keeps source _ _ hrow hlies
  rw [hd] at hspans hall
  have hparts : ∀ e ∈ p.parts, e.Framing source :=
    List.forall_mem_flatMap.mpr fun s hs => (hall s hs).parts
  exact {
    ordered := List.pairwise_map.mp hspans.pairwise
    statements := fun s hs => (hall s hs).span
    parts := fun e he => (hparts e he).span
    clauses := fun e he => (hparts e he).clauses
    quotes := fun e he => (hparts e he).quotes }

/-- The callee and the guard stand in parentheses, which leave no node, and the body of the function
is wrapped in a match. -/
private def nested : Program :=
  ⟨[.function ⟨"f", [], "T", ["x"], .always [⟨"x", ⟨6, 7⟩⟩]
      (.call (.ident "g" ⟨12, 13⟩)
        [.ident "x" ⟨15, 16⟩, .unary .neg (.ident "x" ⟨19, 20⟩) ⟨18, 20⟩] ⟨12, 21⟩)⟩ ⟨0, 22⟩,
    .expression (.matching [⟨"y", ⟨29, 30⟩⟩]
      [.guarded (.ident "y" ⟨39, 40⟩)
        (.binary .and (.ident "f" ⟨45, 46⟩) (.ident "y" ⟨50, 51⟩) ⟨45, 51⟩) ⟨33, 52⟩]
      ⟨23, 54⟩) ⟨23, 55⟩]⟩

private def nestedSource : String :=
  "<T> f(x) = (g)(x, -x);\nmatch y \x7b when (y) -> f && y; \x7d;"

private def nestedTokens : List Token :=
  [⟨.compareOp, "<", ⟨0, 1⟩⟩, ⟨.identifier, "T", ⟨1, 2⟩⟩, ⟨.compareOp, ">", ⟨2, 3⟩⟩,
    ⟨.identifier, "f", ⟨4, 5⟩⟩, ⟨.leftParen, "(", ⟨5, 6⟩⟩, ⟨.identifier, "x", ⟨6, 7⟩⟩,
    ⟨.rightParen, ")", ⟨7, 8⟩⟩, ⟨.assign, "=", ⟨9, 10⟩⟩, ⟨.leftParen, "(", ⟨11, 12⟩⟩,
    ⟨.identifier, "g", ⟨12, 13⟩⟩, ⟨.rightParen, ")", ⟨13, 14⟩⟩, ⟨.leftParen, "(", ⟨14, 15⟩⟩,
    ⟨.identifier, "x", ⟨15, 16⟩⟩, ⟨.comma, ",", ⟨16, 17⟩⟩, ⟨.arithOp, "-", ⟨18, 19⟩⟩,
    ⟨.identifier, "x", ⟨19, 20⟩⟩, ⟨.rightParen, ")", ⟨20, 21⟩⟩, ⟨.semicolon, ";", ⟨21, 22⟩⟩,
    ⟨.keyword, "match", ⟨23, 28⟩⟩, ⟨.identifier, "y", ⟨29, 30⟩⟩, ⟨.leftBrace, "\x7b", ⟨31, 32⟩⟩,
    ⟨.keyword, "when", ⟨33, 37⟩⟩, ⟨.leftParen, "(", ⟨38, 39⟩⟩, ⟨.identifier, "y", ⟨39, 40⟩⟩,
    ⟨.rightParen, ")", ⟨40, 41⟩⟩, ⟨.arrow, "->", ⟨42, 44⟩⟩, ⟨.identifier, "f", ⟨45, 46⟩⟩,
    ⟨.logicOp, "&&", ⟨47, 49⟩⟩, ⟨.identifier, "y", ⟨50, 51⟩⟩, ⟨.semicolon, ";", ⟨51, 52⟩⟩,
    ⟨.rightBrace, "\x7d", ⟨53, 54⟩⟩, ⟨.semicolon, ";", ⟨54, 55⟩⟩]

theorem Program.framed_of_parse_nested :
    nestedSource.utf8ByteSize < 2 ^ 32 ∧ Program.parse nestedSource = .ok nested ∧
      nested.Framed nestedSource := by
  have hsize : nestedSource.utf8ByteSize < 2 ^ 32 := by decide
  have hitems : (TokenStream.ofSource nestedSource).items = nestedTokens.map .ok := by
    decide +kernel
  have hparse : Program.parse nestedSource = .ok nested := by
    rw [Program.parse, Program.ofStream, hitems]
    rfl
  exact ⟨hsize, hparse, Program.framed_of_parse hsize hparse⟩

end Clausal
