import Clausal.Proofs.Tree.WellFormed

/-!
The parts of a tree: its expressions at any depth, the tree itself and the bodies of its
declarations among them. What is part of a part is a part, and every part of a well-formed tree is
well-formed.
-/

namespace Clausal

mutual

def Expr.parts : Expr → List Expr
  | e@(.number ..) | e@(.string ..) | e@(.boolean ..) | e@(.ident ..) => [e]
  | e@(.tuple es _) => e :: Expr.partsOfList es
  | e@(.binary _ a b _) => e :: (a.parts ++ b.parts)
  | e@(.unary _ a _) => e :: a.parts
  | e@(.call f args _) => e :: (f.parts ++ Expr.partsOfList args)
  | e@(.matching _ clauses _) => e :: Clause.partsOfList clauses

def Expr.partsOfList : List Expr → List Expr
  | [] => []
  | e :: es => e.parts ++ Expr.partsOfList es

def Clause.parts : Clause → List Expr
  | .guarded condition body _ => condition.parts ++ body.parts
  | .catchAll body _ => body.parts

def Clause.partsOfList : List Clause → List Expr
  | [] => []
  | c :: cs => c.parts ++ Clause.partsOfList cs

end

/-- The body of a declaration is a match, also where it is written without one. -/
def Statement.parts : Statement → List Expr
  | .define _ _ init _ => init.parts
  | .function d _ => d.body.toExpr.parts
  | .expression e _ => e.parts
  | .comment .. => []

def Program.parts (p : Program) : List Expr := p.statements.flatMap (·.parts)

@[simp] theorem Expr.partsOfList_eq (es : List Expr) :
    Expr.partsOfList es = es.flatMap (·.parts) := by
  induction es with
  | nil => rfl
  | cons e es ih => rw [Expr.partsOfList, ih, List.flatMap_cons]

@[simp] theorem Clause.partsOfList_eq (cs : List Clause) :
    Clause.partsOfList cs = cs.flatMap (·.parts) := by
  induction cs with
  | nil => rfl
  | cons c cs ih => rw [Clause.partsOfList, ih, List.flatMap_cons]

/-- The expressions right in the clause are like this. -/
def Clause.All (W : Expr → Prop) : Clause → Prop
  | .guarded condition body _ => W condition ∧ W body
  | .catchAll body _ => W body

namespace Expr

/-- With an expression, the expressions right in it are like this. -/
structure Closed (W : Expr → Prop) : Prop where
  tuple : ∀ {es s}, W (.tuple es s) → ∀ e ∈ es, W e
  binary : ∀ {op a b s}, W (.binary op a b s) → W a ∧ W b
  unary : ∀ {op a s}, W (.unary op a s) → W a
  call : ∀ {f args s}, W (.call f args s) → W f ∧ ∀ e ∈ args, W e
  matching : ∀ {params clauses s}, W (.matching params clauses s) → ∀ c ∈ clauses, c.All W

variable {W : Expr → Prop}

theorem mem_parts_self (e : Expr) : e ∈ e.parts := by
  cases e <;> exact List.mem_cons_self

/-- What an expression hands down to the expressions right in it reaches all its parts. -/
theorem Closed.parts (hW : Closed W) {e : Expr} (he : W e) : ∀ x ∈ e.parts, W x := by
  have hall : Hereditary (fun e => W e → ∀ x ∈ e.parts, W x)
      fun c => c.All W → ∀ x ∈ c.parts, W x := by
    refine ⟨?_, ?_, ?_, ?_, ?_, ?_, ?_, ?_, ?_, ?_, ?_⟩
    · exact fun _ _ _ he => List.forall_mem_singleton.mpr he
    · exact fun _ _ _ he => List.forall_mem_singleton.mpr he
    · exact fun _ _ _ he => List.forall_mem_singleton.mpr he
    · intro es s ih he
      refine List.forall_mem_cons.mpr ⟨he, ?_⟩
      rw [partsOfList_eq, List.forall_mem_flatMap]
      exact fun e hmem => ih e hmem (hW.tuple he e hmem)
    · exact fun _ _ he => List.forall_mem_singleton.mpr he
    · intro op a b s iha ihb he
      obtain ⟨ha, hb⟩ := hW.binary he
      exact List.forall_mem_cons.mpr ⟨he, List.forall_mem_append.mpr ⟨iha ha, ihb hb⟩⟩
    · exact fun op a s ih he => List.forall_mem_cons.mpr ⟨he, ih (hW.unary he)⟩
    · intro f args s ihf ih he
      obtain ⟨hf, hargs⟩ := hW.call he
      refine List.forall_mem_cons.mpr ⟨he, List.forall_mem_append.mpr ⟨ihf hf, ?_⟩⟩
      rw [partsOfList_eq, List.forall_mem_flatMap]
      exact fun e hmem => ih e hmem (hargs e hmem)
    · intro params clauses s ih he
      refine List.forall_mem_cons.mpr ⟨he, ?_⟩
      rw [Clause.partsOfList_eq, List.forall_mem_flatMap]
      exact fun c hmem => ih c hmem (hW.matching he c hmem)
    · intro condition body s ihcondition ihbody hc
      exact List.forall_mem_append.mpr ⟨ihcondition hc.1, ihbody hc.2⟩
    · exact fun body s ih hc => ih hc
  exact hall.expr e he

/-- What is put together from what is closed is closed. -/
theorem Closed.of_cover
    (h : ∀ e, W e → ∃ V : Expr → Prop, Closed V ∧ V e ∧ ∀ x, V x → W x) : Closed W := by
  refine ⟨fun he x hx => ?_, fun he => ?_, fun he => ?_, fun he => ?_, fun he c hc => ?_⟩
  all_goals obtain ⟨V, hV, hVe, hle⟩ := h _ he
  · exact hle x (hV.tuple hVe x hx)
  · exact (hV.binary hVe).imp (hle _) (hle _)
  · exact hle _ (hV.unary hVe)
  · exact (hV.call hVe).imp (hle _) fun hargs x hx => hle x (hargs x hx)
  · have hclause := hV.matching hVe c hc
    cases c with
    | guarded condition body s => exact hclause.imp (hle _) (hle _)
    | catchAll body s => exact hle _ hclause

/-- The parts of the expressions right in an expression are among its own. -/
theorem closed_parts_subset (l : List Expr) : Closed fun e => e.parts ⊆ l := by
  have htail {e : Expr} {more : List Expr} (h : e :: more ⊆ l) : more ⊆ l :=
    (List.cons_subset.mp h).2
  refine ⟨fun h e he => ?_, fun h => ?_, fun h => htail h, fun h => ?_, fun h c hc => ?_⟩
  · refine List.Subset.trans (fun x hx => ?_) (htail h)
    rw [partsOfList_eq]
    exact List.mem_flatMap_of_mem he hx
  · exact List.append_subset.mp (htail h)
  · obtain ⟨hf, hargs⟩ := List.append_subset.mp (htail h)
    refine ⟨hf, fun e he => List.Subset.trans (fun x hx => ?_) hargs⟩
    rw [partsOfList_eq]
    exact List.mem_flatMap_of_mem he hx
  · have hparts : c.parts ⊆ l := by
      refine List.Subset.trans (fun x hx => ?_) (htail h)
      rw [Clause.partsOfList_eq]
      exact List.mem_flatMap_of_mem hc hx
    cases c with
    | guarded condition body s => exact List.append_subset.mp hparts
    | catchAll body s => exact hparts

/-- What is part of a part is a part. -/
theorem parts_subset {e x : Expr} (h : x ∈ e.parts) : x.parts ⊆ e.parts :=
  (closed_parts_subset e.parts).parts (List.Subset.refl e.parts) x h

theorem closed_wellFormed : Closed Expr.WellFormed := by
  refine ⟨fun h => ?_, fun h => h, fun h => h, fun h => ?_, fun h c hc => ?_⟩
  · exact (allWellFormed_iff _).mp h.2
  · exact ⟨h.1, (allWellFormed_iff _).mp h.2⟩
  · have hclause := (Clause.allWellFormed_iff _).mp h.2 c hc
    cases c <;> exact hclause

end Expr

theorem Statement.parts_subset {s : Statement} {x : Expr} (h : x ∈ s.parts) :
    x.parts ⊆ s.parts := by
  cases s with
  | comment => cases h
  | _ => exact Expr.parts_subset h

theorem Statement.WellFormed.parts {s : Statement} (hs : s.WellFormed) :
    ∀ x ∈ s.parts, x.WellFormed := by
  cases s with
  | define typeName name init span => exact Expr.closed_wellFormed.parts hs.2.2
  | function d span => exact Expr.closed_wellFormed.parts hs.body
  | expression e span => exact Expr.closed_wellFormed.parts hs
  | comment text span => exact fun _ hx => nomatch hx

namespace Program

variable {p : Program}

theorem mem_parts {s : Statement} (hs : s ∈ p.statements) {x : Expr} (hx : x ∈ s.parts) :
    x ∈ p.parts := List.mem_flatMap.mpr ⟨s, hs, hx⟩

theorem closed_mem_parts (p : Program) : Expr.Closed (· ∈ p.parts) := by
  refine Expr.Closed.of_cover fun e he => ?_
  obtain ⟨s, hs, he⟩ := List.mem_flatMap.mp he
  refine ⟨_, Expr.closed_parts_subset s.parts, Statement.parts_subset he, fun x hx => ?_⟩
  exact mem_parts hs (hx x.mem_parts_self)

theorem WellFormed.parts (hp : p.WellFormed) : ∀ x ∈ p.parts, x.WellFormed := by
  intro x hx
  obtain ⟨s, hs, hx⟩ := List.mem_flatMap.mp hx
  exact (hp s hs).parts x hx

end Program

end Clausal
