import Clausal.Proofs.Decimal.Writing
import Clausal.Proofs.Text.Quoted
import Clausal.Token.Literal
import Clausal.Value

/-!
The text of a tuple is unambiguous. The first character of an element tells its kind; a number, a
boolean or null goes on up to a comma or a closing parenthesis, a string up to its closing quote,
and a tuple up to the parenthesis that closes it, whatever stands inside. So the text tells the
elements, as long as there are no functions among them, of which only the name is shown, and no
missing numbers, which are all shown alike.
-/

namespace Clausal

open Text

/-- There is no function in the value, and no missing number. -/
inductive Value.Plain : Value → Prop
  | number {x : Float} (present : x.isNaN = false) : Plain (.number x)
  | string (s : String) : Plain (.string s)
  | boolean (b : Bool) : Plain (.boolean b)
  | null : Plain .null
  | tuple {vs : List Value} (elements : ∀ v ∈ vs, Plain v) : Plain (.tuple vs)

/-- The kind of an element by its first character. -/
def Value.Kind.ofFirst (c : Char) : Value.Kind :=
  if c.isDigit = true ∨ c ∈ ['-', 'i'] then .number
  else if c = '"' then .string
  else if c ∈ ['t', 'f'] then .boolean
  else if c = 'n' then .null
  else if c = '(' then .tuple
  else .function

namespace Value

variable {v w : Value} {vs ws : List Value} {r r' : List Char} {c : Char}

def writeLater : List Value → String
  | [] => ""
  | v :: vs => ", " ++ writeElements (v :: vs)

theorem writeElements_cons (v : Value) (vs : List Value) :
    writeElements (v :: vs) = v.write true ++ writeLater vs := by
  cases vs with
  | nil => simp [writeElements, writeLater]
  | cons w ws => simp [writeElements, writeLater, String.append_assoc]

theorem toList_writeLater_cons (v : Value) (vs : List Value) :
    (writeLater (v :: vs)).toList = ',' :: ' ' :: (writeElements (v :: vs)).toList := by
  simp [writeLater]

theorem toList_write_tuple (vs : List Value) (element : Bool) :
    ((tuple vs).write element).toList = '(' :: ((writeElements vs).toList ++ [')']) := by
  simp [write]

/-- A text other than a quoted one goes on with such characters. -/
def goesOn (c : Char) : Bool := c != ',' && c != ')'

theorem eq_of_not_goesOn (h : ¬ goesOn c = true) : c = ',' ∨ c = ')' := by
  by_cases hcomma : c = ','
  · exact .inl hcomma
  · simp_all [goesOn]

/-- What may follow an element. -/
def Stopped (r : List Char) : Prop := ∀ c ∈ r.head?, goesOn c = false

theorem stopped_cons (h : c = ',' ∨ c = ')') : Stopped (c :: r) := by
  intro d hd
  obtain rfl : c = d := by simpa using hd
  rcases h with rfl | rfl <;> rfl

theorem stopped_later (vs : List Value) (r : List Char) :
    Stopped ((writeLater vs).toList ++ ')' :: r) := by
  cases vs with
  | nil => exact stopped_cons (.inr rfl)
  | cons v vs =>
      rw [toList_writeLater_cons]
      exact stopped_cons (.inl rfl)

theorem exists_first (h : v.Plain) :
    ∃ c cs, (v.write true).toList = c :: cs ∧ Kind.ofFirst c = v.kind := by
  cases h with
  | number present =>
      obtain ⟨c, cs, htext, hc⟩ := (Decimal.write_shape present).1
      exact ⟨c, cs, htext, if_pos hc⟩
  | string s =>
      have htext : ((string s).write true).toList = quotedWith '"' s.toList := by
        simp only [write, if_true, quoted, String.toList_ofList]
      exact ⟨'"', _, htext, rfl⟩
  | boolean b => cases b <;> exact ⟨_, _, rfl, rfl⟩
  | null => exact ⟨_, _, rfl, rfl⟩
  | tuple elements => exact ⟨_, _, toList_write_tuple _ _, rfl⟩

theorem ofFirst_parenthesis : Kind.ofFirst ')' = .function := rfl

theorem Plain.kind_ne (h : v.Plain) : v.kind ≠ .function := by
  cases h <;> simp [kind]

/-- No element starts like what follows elements. -/
theorem Plain.ne_closing (h : v.Plain) : (v.write true).toList ++ r ≠ ')' :: r' := by
  intro heq
  obtain ⟨c, cs, htext, hkind⟩ := exists_first h
  rw [htext] at heq
  obtain rfl : c = ')' := List.head_eq_of_cons_eq heq
  exact h.kind_ne (hkind.symm.trans ofFirst_parenthesis)

/-- Two elements that begin texts that are equal are of the same kind. -/
theorem kind_eq_of_append (hv : v.Plain) (hw : w.Plain)
    (h : (v.write true).toList ++ r = (w.write true).toList ++ r') : v.kind = w.kind := by
  obtain ⟨c, cs, htext, hkind⟩ := exists_first hv
  obtain ⟨d, ds, htext', hkind'⟩ := exists_first hw
  rw [htext, htext'] at h
  obtain rfl : c = d := List.head_eq_of_cons_eq h
  exact hkind.symm.trans hkind'

theorem goesOn_of_mem_number {x : Float} (h : x.isNaN = false) :
    ∀ c ∈ (Decimal.Notation.plain.write x).toList, goesOn c = true := by
  intro c hc
  rcases (Decimal.write_shape h).2 c hc with hdigit | hother
  · by_contra hstop
    rcases eq_of_not_goesOn hstop with rfl | rfl
    · contradiction
    · contradiction
  · by_contra hstop
    rcases eq_of_not_goesOn hstop with rfl | rfl
    · simp at hother
    · simp at hother

theorem goesOn_of_mem_boolean (b : Bool) :
    ∀ c ∈ ((boolean b).write true).toList, goesOn c = true := by
  apply List.all_eq_true.mp
  cases b
  · rfl
  · rfl

/-- The text of an element tells the element, whatever follows it. -/
def Tells (v : Value) : Prop :=
  ∀ {w r r'}, w.Plain → Stopped r → Stopped r' →
    (v.write true).toList ++ r = (w.write true).toList ++ r' → v = w ∧ r = r'

/-- Elements up to the closing parenthesis are told one by one. -/
theorem writeElements_injective (hvs : ∀ v ∈ vs, v.Plain ∧ v.Tells) (hws : ∀ w ∈ ws, w.Plain)
    (h : (writeElements vs).toList ++ ')' :: r = (writeElements ws).toList ++ ')' :: r') :
    vs = ws ∧ r = r' := by
  induction vs generalizing ws with
  | nil =>
      cases ws with
      | nil => exact ⟨rfl, (List.cons.inj h).2⟩
      | cons w ws =>
          rw [writeElements_cons, String.toList_append, List.append_assoc] at h
          exact absurd h.symm (hws w List.mem_cons_self).ne_closing
  | cons v vs ih =>
      obtain ⟨hv, hvs'⟩ := List.forall_mem_cons.mp hvs
      cases ws with
      | nil =>
          rw [writeElements_cons, String.toList_append, List.append_assoc] at h
          exact absurd h hv.1.ne_closing
      | cons w ws =>
          obtain ⟨hw, hws'⟩ := List.forall_mem_cons.mp hws
          rw [writeElements_cons, writeElements_cons, String.toList_append, String.toList_append,
            List.append_assoc, List.append_assoc] at h
          obtain ⟨rfl, hlater⟩ := hv.2 hw (stopped_later vs r) (stopped_later ws r') h
          -- A comma goes on to the next element, and the parenthesis ends both.
          cases vs with
          | nil =>
              cases ws with
              | nil => exact ⟨rfl, (List.cons.inj hlater).2⟩
              | cons w ws =>
                  rw [toList_writeLater_cons] at hlater
                  exact absurd (List.head_eq_of_cons_eq hlater) (by decide)
          | cons v' vs =>
              rw [toList_writeLater_cons] at hlater
              cases ws with
              | nil => exact absurd (List.head_eq_of_cons_eq hlater) (by decide)
              | cons w ws =>
                  rw [toList_writeLater_cons] at hlater
                  simp only [List.cons_append, List.cons.injEq, true_and] at hlater
                  obtain ⟨heq, hrest⟩ := ih hvs' hws' hlater
                  exact ⟨by rw [heq], hrest⟩

theorem Plain.tells (h : v.Plain) : v.Tells := by
  -- The first characters agree, so the other value is of the same kind.
  induction h with
  | @number x present =>
      intro w r r' hw hr hr' heq
      have hkind := kind_eq_of_append (.number present) hw heq
      cases hw with
      | @number y present' =>
          obtain ⟨htext, hrest⟩ := append_injective_of_stops (goesOn_of_mem_number present)
            (goesOn_of_mem_number present') hr hr' heq
          have hsame := Decimal.write_injective present present' (String.toList_inj.mp htext)
          exact ⟨congrArg Value.number hsame, hrest⟩
      | _ => cases hkind
  | string s =>
      intro w r r' hw hr hr' heq
      have hkind := kind_eq_of_append (.string s) hw heq
      cases hw with
      | string t =>
          obtain ⟨rfl, hrest⟩ := quoted_append_injective heq
          exact ⟨rfl, hrest⟩
      | _ => cases hkind
  | boolean b =>
      intro w r r' hw hr hr' heq
      have hkind := kind_eq_of_append (.boolean b) hw heq
      cases hw with
      | boolean b' =>
          obtain ⟨htext, hrest⟩ := append_injective_of_stops (goesOn_of_mem_boolean b)
            (goesOn_of_mem_boolean b') hr hr' heq
          refine ⟨?_, hrest⟩
          cases b <;> cases b' <;> first | rfl | exact absurd htext (by decide)
      | _ => cases hkind
  | null =>
      intro w r r' hw hr hr' heq
      have hkind := kind_eq_of_append .null hw heq
      cases hw with
      | null => exact ⟨rfl, List.append_cancel_left heq⟩
      | _ => cases hkind
  | @tuple vs elements ih =>
      intro w r r' hw hr hr' heq
      have hkind := kind_eq_of_append (.tuple elements) hw heq
      cases hw with
      | @tuple ws elements' =>
          rw [toList_write_tuple, toList_write_tuple, List.cons_append, List.cons_append,
            List.append_assoc, List.append_assoc] at heq
          obtain ⟨rfl, hrest⟩ := writeElements_injective
            (fun v hv => ⟨elements v hv, ih v hv⟩) elements' (List.cons.inj heq).2
          exact ⟨rfl, hrest⟩
      | _ => cases hkind

/-- Tuples that are shown alike are equal, element by element, and numbers in them bit by bit. -/
theorem tuple_text_injective (hvs : (tuple vs).Plain) (hws : (tuple ws).Plain)
    (h : (tuple vs).text = (tuple ws).text) : vs = ws := by
  have htexts := congrArg String.toList h
  simp only [text, toList_write_tuple, List.cons.injEq, true_and] at htexts
  cases hvs with
  | tuple elements =>
      cases hws with
      | tuple elements' =>
          exact (writeElements_injective (fun v hv => ⟨elements v hv, (elements v hv).tells⟩)
            elements' htexts).1

/-- A number, a string that has quotes and commas inside, and tuples. -/
private def assorted (raw : String) : List Value :=
  [.number (Literal.numberValue raw), .string "a\", (\n", .tuple [], .tuple [.boolean true, .null]]

/-- Numbers spelled in two ways are shown alike, so they are one number. -/
theorem tuple_text_injective_assorted :
    (tuple (assorted "0.50")).text = (tuple (assorted "0.5")).text ∧
      assorted "0.50" = assorted "0.5" := by
  have hplain : ∀ raw, (Literal.numberValue raw).isNaN = false → (tuple (assorted raw)).Plain := by
    intro raw present
    refine .tuple (List.forall_mem_cons.mpr ⟨.number present, List.forall_mem_cons.mpr
      ⟨.string _, List.forall_mem_cons.mpr ⟨.tuple (by simp), ?_⟩⟩⟩)
    refine List.forall_mem_singleton.mpr (.tuple (List.forall_mem_cons.mpr ⟨.boolean _, ?_⟩))
    exact List.forall_mem_singleton.mpr .null
  have htext : (tuple (assorted "0.50")).text = (tuple (assorted "0.5")).text := by decide +kernel
  have hfirst := hplain "0.50" (by decide +kernel)
  have hsecond := hplain "0.5" (by decide +kernel)
  exact ⟨htext, tuple_text_injective hfirst hsecond htext⟩

end Value

end Clausal
