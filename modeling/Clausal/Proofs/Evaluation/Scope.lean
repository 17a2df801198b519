import Clausal.Proofs.Evaluation.Purity

/-!
Scopes as maps. A scope is determined by what is found in it under each name, and what is found
after a binding is the new value under its own name and what was there before under every other.
So the scope of a list of bindings has the last binding for each name, and what holds of all values
that are bound is kept by every binding of such a value.
-/

namespace Clausal

namespace Scope

theorem lookup_insert_self (name : String) (value : Value) (bindings : List (String × Value)) :
    (insert name value bindings).lookup name = some value := by
  induction bindings with
  | nil => rw [insert, List.lookup_cons_self]
  | cons b rest ih =>
      obtain ⟨n, v⟩ := b
      unfold insert
      split
      · rw [List.lookup_cons_self]
      · split
        · rw [List.lookup_cons_self]
        · next different =>
          rw [List.lookup_cons, beq_eq_false_iff_ne.mpr different]
          exact ih

theorem lookup?_define (s : Scope) (name other : String) (value : Value) :
    (s.define name value).lookup? other = if other = name then some value else s.lookup? other := by
  split
  · next same =>
    subst same
    exact lookup_insert_self other value s.bindings
  · next different => exact lookup?_define_of_ne different s value

/-- What is found under a name is the last binding for it. -/
theorem lookup?_foldl_define (bindings : List (String × Value)) (s : Scope) (name : String) :
    (bindings.foldl (fun s b => s.define b.1 b.2) s).lookup? name =
      (bindings.reverse.lookup name).or (s.lookup? name) := by
  induction bindings generalizing s with
  | nil => rfl
  | cons b rest ih =>
      rw [List.foldl_cons, ih, lookup?_define, List.reverse_cons, List.lookup_append]
      cases rest.reverse.lookup name with
      | some v => rfl
      | none =>
          rw [List.lookup_cons]
          by_cases h : name = b.1
          · simp [h]
          · simp [h, beq_eq_false_iff_ne.mpr h]

theorem lookup?_ofList (bindings : List (String × Value)) (name : String) :
    (ofList bindings).lookup? name = bindings.reverse.lookup name := by
  rw [ofList, lookup?_foldl_define]
  exact Option.or_none

/-- Nothing is found under a name that comes before all that are bound. -/
theorem lookup_eq_none_of_lt {name : String} {bindings : List (String × Value)}
    (h : ∀ b ∈ bindings, name < b.1) : bindings.lookup name = none := by
  induction bindings with
  | nil => rfl
  | cons b rest ih =>
      obtain ⟨hb, hrest⟩ := List.forall_mem_cons.mp h
      have hne : name ≠ b.1 := fun he => String.lt_irrefl b.1 (he ▸ hb)
      rw [List.lookup_cons, beq_eq_false_iff_ne.mpr hne]
      exact ih hrest

/-- A name that is found is not before the first one bound. -/
theorem le_of_lookup {name n : String} {v w : Value} {rest : List (String × Value)}
    (ordered : ((n, v) :: rest).Pairwise fun a b => a.1 < b.1)
    (h : ((n, v) :: rest).lookup name = some w) : n ≤ name := by
  by_cases hlt : name < n
  · have hbefore : ∀ b ∈ (n, v) :: rest, name < b.1 := by
      refine List.forall_mem_cons.mpr ⟨hlt, fun b hb => ?_⟩
      exact String.lt_trans hlt (List.rel_of_pairwise_cons ordered hb)
    rw [lookup_eq_none_of_lt hbefore] at h
    cases h
  · exact String.not_lt.mp hlt

theorem eq_of_lookup_eq {as bs : List (String × Value)} (ha : as.Pairwise fun a b => a.1 < b.1)
    (hb : bs.Pairwise fun a b => a.1 < b.1) (h : ∀ name, as.lookup name = bs.lookup name) :
    as = bs := by
  induction as generalizing bs with
  | nil =>
      cases bs with
      | nil => rfl
      | cons b bs =>
          have hhead := h b.1
          rw [List.lookup_cons_self] at hhead
          cases hhead
  | cons a as ih =>
      obtain ⟨n, v⟩ := a
      cases bs with
      | nil =>
          have hhead := h n
          rw [List.lookup_cons_self] at hhead
          cases hhead
      | cons b bs =>
          obtain ⟨m, w⟩ := b
          have hn := h n
          have hm := h m
          rw [List.lookup_cons_self] at hn hm
          obtain rfl : n = m := String.le_antisymm (le_of_lookup ha hm) (le_of_lookup hb hn.symm)
          rw [List.lookup_cons_self] at hn
          obtain rfl : v = w := Option.some.inj hn
          obtain ⟨hfirst, has⟩ := List.pairwise_cons.mp ha
          obtain ⟨hfirst', hbs⟩ := List.pairwise_cons.mp hb
          refine congrArg _ (ih has hbs fun name => ?_)
          by_cases hname : name = n
          · subst hname
            rw [lookup_eq_none_of_lt hfirst, lookup_eq_none_of_lt hfirst']
          · have hrest := h name
            rwa [List.lookup_cons, List.lookup_cons, beq_eq_false_iff_ne.mpr hname] at hrest

/-- Two scopes in which the same is found under every name are equal. -/
theorem ext_lookup? {s t : Scope} (h : ∀ name, s.lookup? name = t.lookup? name) : s = t := by
  obtain ⟨as, ha⟩ := s
  obtain ⟨bs, hb⟩ := t
  obtain rfl : as = bs := eq_of_lookup_eq ha hb h
  rfl

section All

variable {V : Value → Prop}

def All (V : Value → Prop) (s : Scope) : Prop := ∀ b ∈ s.bindings, V b.2

theorem all_empty : empty.All V := fun _ hb => nomatch hb

theorem All.define {s : Scope} (h : s.All V) (name : String) {v : Value} (hv : V v) :
    (s.define name v).All V := by
  intro b hb
  rcases mem_insert hb with rfl | hb
  · exact hv
  · exact h b hb

theorem all_ofList {bindings : List (String × Value)} (h : ∀ b ∈ bindings, V b.2) :
    (ofList bindings).All V := by
  have hfold : ∀ s : Scope, s.All V →
      (bindings.foldl (fun s b => s.define b.1 b.2) s).All V := by
    induction bindings with
    | nil => exact fun s hs => hs
    | cons b bindings ih =>
        obtain ⟨hb, hbindings⟩ := List.forall_mem_cons.mp h
        exact fun s hs => ih hbindings _ (hs.define b.1 hb)
  exact hfold empty all_empty

theorem All.lookup? {s : Scope} (h : s.All V) {name : String} {v : Value}
    (hv : s.lookup? name = some v) : V v := by
  obtain ⟨l, r, hbindings, -⟩ := List.lookup_eq_some_iff.mp hv
  exact h (name, v) (by simp [hbindings])

end All

end Scope

namespace Environment

variable {V : Value → Prop}

structure All (V : Value → Prop) (env : Environment) : Prop where
  globals : env.globals.All V
  locals : ∀ s, env.locals = some s → s.All V

theorem All.lookup? {env : Environment} (h : env.All V) {name : String} {v : Value}
    (hv : env.lookup? name = some v) : V v := by
  rcases Option.or_eq_some_iff.mp hv with hlocal | ⟨-, hglobal⟩
  · obtain ⟨s, hs, hlookup⟩ := Option.bind_eq_some_iff.mp hlocal
    exact (h.locals s hs).lookup? hlookup
  · exact h.globals.lookup? hglobal

theorem All.defineGlobal {env : Environment} (h : env.All V) (name : String) {v : Value}
    (hv : V v) : (env.defineGlobal name v).All V :=
  ⟨h.globals.define name hv, h.locals⟩

theorem all_empty : empty.All V := ⟨Scope.all_empty, fun _ h => nomatch h⟩

end Environment

end Clausal
