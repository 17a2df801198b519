import Clausal.Value

/-!
Bindings. A scope is a list of names and values in rising order of the names, so that two scopes
with the same bindings are equal. The environment is one scope of globals, and the scope of the
arguments while a call is active.
-/

namespace Clausal

structure Scope where
  bindings : List (String × Value)
  ordered : bindings.Pairwise fun a b => a.1 < b.1

namespace Scope

def empty : Scope := ⟨[], .nil⟩

def lookup? (s : Scope) (name : String) : Option Value := s.bindings.lookup name

def contains (s : Scope) (name : String) : Bool := (s.lookup? name).isSome

def size (s : Scope) : Nat := s.bindings.length

/-- Puts a binding in its place, over one for the same name. -/
def insert (name : String) (value : Value) : List (String × Value) → List (String × Value)
  | [] => [(name, value)]
  | (n, v) :: rest =>
    if name < n then (name, value) :: (n, v) :: rest
    else if name = n then (name, value) :: rest
    else (n, v) :: insert name value rest

theorem mem_insert {name : String} {value : Value} {b : String × Value} :
    ∀ {bs : List (String × Value)}, b ∈ insert name value bs → b = (name, value) ∨ b ∈ bs
  | [], h => .inl (List.mem_singleton.1 h)
  | (n, v) :: rest, h => by
    unfold insert at h
    split at h
    · simpa using h
    · split at h
      · rcases List.mem_cons.1 h with rfl | h
        · exact .inl rfl
        · exact .inr (List.mem_cons_of_mem _ h)
      · rcases List.mem_cons.1 h with rfl | h
        · exact .inr (List.mem_cons_self ..)
        · exact (mem_insert h).imp id (List.mem_cons_of_mem _)

theorem ordered_insert (name : String) (value : Value) :
    ∀ {bs : List (String × Value)}, bs.Pairwise (fun a b => a.1 < b.1) →
      (insert name value bs).Pairwise fun a b => a.1 < b.1
  | [], _ => List.pairwise_singleton ..
  | (n, v) :: rest, h => by
    obtain ⟨first, others⟩ := List.pairwise_cons.1 h
    unfold insert
    split
    · next lower =>
      refine List.pairwise_cons.2 ⟨fun b hb => ?_, h⟩
      rcases List.mem_cons.1 hb with rfl | hb
      · exact lower
      · exact String.lt_trans lower (first b hb)
    · split
      · next same =>
        subst same
        exact List.pairwise_cons.2 ⟨first, others⟩
      · next notLower different =>
        refine List.pairwise_cons.2 ⟨fun b hb => ?_, ordered_insert name value others⟩
        rcases mem_insert hb with rfl | hb
        · exact String.not_le.1 fun le =>
            different (String.le_antisymm le (String.not_lt.1 notLower))
        · exact first b hb

def define (s : Scope) (name : String) (value : Value) : Scope :=
  ⟨insert name value s.bindings, ordered_insert name value s.ordered⟩

/-- The scope of some bindings; the last one for a name counts. -/
def ofList (bindings : List (String × Value)) : Scope :=
  bindings.foldl (fun s b => s.define b.1 b.2) empty

end Scope

structure Environment where
  globals : Scope
  /-- The arguments of the innermost active call. -/
  locals : Option Scope

namespace Environment

def empty : Environment := ⟨.empty, none⟩

def lookup? (env : Environment) (name : String) : Option Value :=
  (env.locals.bind (·.lookup? name)).or (env.globals.lookup? name)

def defineGlobal (env : Environment) (name : String) (value : Value) : Environment :=
  { env with globals := env.globals.define name value }

def withLocals (env : Environment) (locals : Option Scope) : Environment :=
  { env with locals := locals }

end Environment

end Clausal
