import Clausal.Proofs.Token.Layout
import Clausal.Proofs.Tree.Parts

/-!
How spans lie in a tree. Spans that stand one after the other make a row, and the span from the
first of a row to its last frames what stands between. A tree is framed if the span of each of its
nodes frames the spans right under it, in their order, and if the spans of its names and literals
select their texts.
-/

namespace Clausal

namespace Span

/-- The spans stand one after the other from one offset to another, and none of them is empty. -/
def Row : Nat → List Span → Nat → Prop
  | lo, [], hi => lo ≤ hi
  | lo, s :: ss, hi => lo ≤ s.start ∧ s.start < s.stop ∧ Row s.stop ss hi

@[simp] theorem row_nil {lo hi : Nat} : Row lo [] hi ↔ lo ≤ hi := Iff.rfl

@[simp] theorem row_cons {lo hi : Nat} {s : Span} {ss : List Span} :
    Row lo (s :: ss) hi ↔ lo ≤ s.start ∧ s.start < s.stop ∧ Row s.stop ss hi := Iff.rfl

theorem row_append {lo hi : Nat} {ss ts : List Span} :
    Row lo (ss ++ ts) hi ↔ ∃ m, Row lo ss m ∧ Row m ts hi := by
  induction ss generalizing lo with
  | nil =>
      cases ts with
      | nil => exact ⟨fun h => ⟨hi, h, Nat.le_refl hi⟩, fun ⟨m, h, h'⟩ => Nat.le_trans h h'⟩
      | cons t ts =>
          refine ⟨fun h => ⟨lo, Nat.le_refl lo, h⟩, fun ⟨m, h, ht, hts⟩ => ⟨?_, hts⟩⟩
          exact Nat.le_trans h ht
  | cons s ss ih =>
      rw [List.cons_append, row_cons, ih]
      constructor
      · rintro ⟨hs, hsome, m, hss, hts⟩
        exact ⟨m, ⟨hs, hsome, hss⟩, hts⟩
      · rintro ⟨m, ⟨hs, hsome, hss⟩, hts⟩
        exact ⟨hs, hsome, m, hss, hts⟩

namespace Row

variable {lo hi lo' hi' : Nat} {s a b : Span} {ss inner middle : List Span}

theorem le (h : Row lo ss hi) : lo ≤ hi := by
  induction ss generalizing lo with
  | nil => exact h
  | cons s ss ih =>
      obtain ⟨hs, hsome, hss⟩ := h
      have hle := ih hss
      omega

theorem mono (h : Row lo ss hi) (hlo : lo' ≤ lo) (hhi : hi ≤ hi') : Row lo' ss hi' := by
  induction ss generalizing lo lo' with
  | nil => exact Nat.le_trans hlo (Nat.le_trans h hhi)
  | cons s ss ih =>
      obtain ⟨hs, hsome, hss⟩ := h
      exact ⟨Nat.le_trans hlo hs, hsome, ih hss (Nat.le_refl _)⟩

/-- A span in front of a row, further on or right before it. -/
theorem cons {m m' : Nat} (hs : Row lo [s] m) (hss : Row m' ss hi) (hle : m ≤ m') :
    Row lo (s :: ss) hi := by
  obtain ⟨hlo, hsome, hm⟩ := hs
  exact ⟨hlo, hsome, hss.mono (Nat.le_trans hm hle) (Nat.le_refl hi)⟩

theorem sublist (h : Row lo ss hi) (hsub : inner.Sublist ss) : Row lo inner hi := by
  induction hsub generalizing lo with
  | slnil => exact h
  | cons s _ ih =>
      obtain ⟨hs, hsome, hss⟩ := h
      exact (ih hss).mono (by omega) (Nat.le_refl hi)
  | cons_cons s _ ih =>
      obtain ⟨hs, hsome, hss⟩ := h
      exact ⟨hs, hsome, ih hss⟩

theorem bounds (h : Row lo ss hi) : ∀ s ∈ ss, lo ≤ s.start ∧ s.stop ≤ hi := by
  induction ss generalizing lo with
  | nil => simp
  | cons s ss ih =>
      obtain ⟨hs, hsome, hss⟩ := h
      intro t ht
      rcases List.mem_cons.mp ht with rfl | ht
      · exact ⟨hs, hss.le⟩
      · obtain ⟨hstart, hstop⟩ := ih hss t ht
        exact ⟨by omega, hstop⟩

theorem some (h : Row lo ss hi) : ∀ s ∈ ss, s.start < s.stop := by
  induction ss generalizing lo with
  | nil => simp
  | cons s ss ih => exact List.forall_mem_cons.mpr ⟨h.2.1, ih h.2.2⟩

theorem pairwise (h : Row lo ss hi) : ss.Pairwise fun a b => a.stop ≤ b.start := by
  induction ss generalizing lo with
  | nil => exact .nil
  | cons s ss ih =>
      obtain ⟨-, -, hss⟩ := h
      exact .cons (fun t ht => (hss.bounds t ht).1) (ih hss)

end Row

/-- The span is not empty and lies in the source, and the spans in it follow one another. -/
structure Frames (source : String) (s : Span) (inner : List Span) : Prop where
  some : s.start < s.stop
  inside : s.stop ≤ source.utf8ByteSize
  within : ∀ t ∈ inner, s.start ≤ t.start ∧ t.stop ≤ s.stop
  ordered : inner.Pairwise fun a b => a.stop ≤ b.start

section Frames

variable {source : String} {lo hi : Nat} {s a b : Span} {inner middle : List Span}

theorem Frames.of_row (hsome : s.start < s.stop) (hinside : s.stop ≤ source.utf8ByteSize)
    (h : Row s.start inner s.stop) : s.Frames source inner :=
  ⟨hsome, hinside, h.bounds, h.pairwise⟩

/-- A span frames what stands where it stands. -/
theorem Frames.self (h : s.Frames source inner) : s.Frames source [s] :=
  .of_row h.some h.inside ⟨Nat.le_refl _, h.some, Nat.le_refl _⟩

/-- The span from the first of a row to its last stands where the row does, and frames what is left
when some of the row is left out. -/
theorem Row.merge (h : Row lo (a :: (middle ++ [b])) hi) (hb : b.stop ≤ source.utf8ByteSize)
    (hinner : inner.Sublist (a :: (middle ++ [b]))) :
    Row lo [a.merge b] hi ∧ (a.merge b).Frames source inner := by
  obtain ⟨ha, hsome, hrest⟩ := h
  obtain ⟨m, hmiddle, hstart, hlast, hstop⟩ := row_append.mp hrest
  have hle := hmiddle.le
  rw [row_nil] at hstop
  have hmerge : a.merge b = ⟨a.start, b.stop⟩ := by
    rw [Span.merge, Nat.min_eq_left (by omega), Nat.max_eq_right (by omega)]
  have hrow : Row a.start (a :: (middle ++ [b])) b.stop :=
    ⟨Nat.le_refl _, hsome, row_append.mpr ⟨m, hmiddle, hstart, hlast, Nat.le_refl _⟩⟩
  have hwhole : a.start < b.stop := by omega
  rw [hmerge]
  exact ⟨⟨ha, hwhole, hstop⟩, .of_row hwhole hb (hrow.sublist hinner)⟩

theorem Row.merge_pair (h : Row lo [a, b] hi) (hb : b.stop ≤ source.utf8ByteSize)
    (hinner : inner.Sublist [a, b]) :
    Row lo [a.merge b] hi ∧ (a.merge b).Frames source inner := by
  have hrow : Row lo (a :: ([] ++ [b])) hi := h
  exact hrow.merge hb hinner

/-- The span from one place to a later one frames the row that stands between them. -/
theorem frames_between {m m' : Nat} (ha : lo ≤ a.start) (hsome : a.start < a.stop)
    (hle : a.stop ≤ m) (hinner : Row m inner m') (hb : Row m' [b] hi)
    (hinside : b.stop ≤ source.utf8ByteSize) :
    Row lo [a.merge b] hi ∧ (a.merge b).Frames source inner := by
  have hrow : Row lo (a :: (inner ++ [b])) hi :=
    ⟨ha, hsome, row_append.mpr ⟨m', hinner.mono hle (Nat.le_refl _), hb⟩⟩
  exact hrow.merge hinside (.cons _ (List.sublist_append_left _ _))

def Selects (source : String) (s : Span) (text : String) : Prop :=
  Text.slice? source.toList s.start s.stop = Option.some text.toList

end Frames

end Span

/-- The spans right under an expression, as they follow one another. -/
def Expr.inner : Expr → List Span
  | .number .. | .string .. | .boolean .. | .ident .. => []
  | .tuple es _ => es.map (·.span)
  | .binary _ a b _ => [a.span, b.span]
  | .unary _ a _ => [a.span]
  | .call f args _ => f.span :: args.map (·.span)
  | .matching _ clauses _ => clauses.map (·.span)

def Clause.inner : Clause → List Span
  | .guarded condition body _ => [condition.span, body.span]
  | .catchAll body _ => [body.span]

def Statement.inner : Statement → List Span
  | .define _ _ init _ => [init.span]
  | .function d _ => [d.body.span]
  | .expression e _ => [e.span]
  | .comment .. => []

def Expr.clauses : Expr → List Clause
  | .matching _ clauses _ => clauses
  | _ => []

/-- The spans that an expression has for texts of the source, with these texts. -/
def Expr.quotes : Expr → List (Span × String)
  | .number _ raw s | .string _ raw s | .boolean _ raw s => [(s, raw)]
  | .ident name s => [(s, name)]
  | .matching params _ _ => params.map fun p => (p.span, p.name)
  | _ => []

/-- What the spans of one node say. -/
structure Expr.Framing (source : String) (e : Expr) : Prop where
  span : e.span.Frames source e.inner
  clauses : ∀ c ∈ e.clauses, c.span.Frames source c.inner
  quotes : ∀ q ∈ e.quotes, q.1.Selects source q.2

def Expr.Framed (source : String) (e : Expr) : Prop := ∀ x ∈ e.parts, x.Framing source

structure Clause.Framed (source : String) (c : Clause) : Prop where
  span : c.span.Frames source c.inner
  parts : ∀ x ∈ c.parts, x.Framing source

structure Statement.Framed (source : String) (s : Statement) : Prop where
  span : s.span.Frames source s.inner
  parts : ∀ x ∈ s.parts, x.Framing source

namespace Expr

variable {source : String} {s : Span} {e a b f : Expr} {es args : List Expr}

theorem Framed.span (h : e.Framed source) : e.span.Frames source e.inner :=
  (h e e.mem_parts_self).span

theorem Framed.inside (h : e.Framed source) : e.span.stop ≤ source.utf8ByteSize := h.span.inside

/-- An expression without others in it. -/
theorem framed_atom (hparts : e.parts = [e]) (hinner : e.inner = []) (hclauses : e.clauses = [])
    (hspan : e.span.Frames source []) (hquotes : ∀ q ∈ e.quotes, q.1.Selects source q.2) :
    e.Framed source := by
  rw [Framed, hparts]
  refine List.forall_mem_singleton.mpr ⟨hinner ▸ hspan, ?_, hquotes⟩
  simp [hclauses]

theorem framed_tuple (hs : s.Frames source (es.map (·.span))) (hes : ∀ e ∈ es, e.Framed source) :
    (tuple es s).Framed source := by
  rw [Framed, parts, partsOfList_eq]
  refine List.forall_mem_cons.mpr ⟨⟨hs, nofun, nofun⟩, ?_⟩
  exact List.forall_mem_flatMap.mpr hes

theorem framed_binary {op : BinaryOp} (hs : s.Frames source [a.span, b.span])
    (ha : a.Framed source) (hb : b.Framed source) : (binary op a b s).Framed source := by
  rw [Framed, parts]
  refine List.forall_mem_cons.mpr ⟨⟨hs, nofun, nofun⟩, ?_⟩
  exact List.forall_mem_append.mpr ⟨ha, hb⟩

theorem framed_unary {op : UnaryOp} (hs : s.Frames source [a.span]) (ha : a.Framed source) :
    (unary op a s).Framed source := by
  rw [Framed, parts]
  exact List.forall_mem_cons.mpr ⟨⟨hs, nofun, nofun⟩, ha⟩

theorem framed_call (hs : s.Frames source (f.span :: args.map (·.span))) (hf : f.Framed source)
    (hargs : ∀ e ∈ args, e.Framed source) : (call f args s).Framed source := by
  rw [Framed, parts, partsOfList_eq]
  refine List.forall_mem_cons.mpr ⟨⟨hs, nofun, nofun⟩, ?_⟩
  exact List.forall_mem_append.mpr ⟨hf, List.forall_mem_flatMap.mpr hargs⟩

theorem framed_matching {params : List Ident} {clauses : List Clause}
    (hs : s.Frames source (clauses.map (·.span)))
    (hparams : ∀ p ∈ params, p.span.Selects source p.name)
    (hclauses : ∀ c ∈ clauses, c.Framed source) : (matching params clauses s).Framed source := by
  rw [Framed, parts, Clause.partsOfList_eq]
  refine List.forall_mem_cons.mpr ⟨⟨hs, fun c hc => (hclauses c hc).span, ?_⟩, ?_⟩
  · exact List.forall_mem_map.mpr hparams
  · exact List.forall_mem_flatMap.mpr fun c hc => (hclauses c hc).parts

end Expr

/-- The match that stands where its body does. -/
theorem Match.framed_always {source : String} {params : List Ident} {body : Expr}
    (hparams : ∀ p ∈ params, p.span.Selects source p.name) (hbody : body.Framed source) :
    (Match.always params body).toExpr.Framed source :=
  Expr.framed_matching hbody.span.self hparams
    (List.forall_mem_singleton.mpr ⟨hbody.span.self, hbody⟩)

theorem Match.framed_ofExpr {source : String} {e : Expr} (h : e.Framed source) :
    (Match.ofExpr e).toExpr.Framed source := by
  cases e with
  | matching => exact h
  | _ => exact Match.framed_always (fun _ hp => nomatch hp) h

theorem Match.span_ofExpr (e : Expr) : (Match.ofExpr e).span = e.span := by
  cases e <;> rfl

end Clausal
