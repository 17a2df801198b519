import Clausal.Text.Quoted

/-!
Quoted text tells where it ends and what it quotes. What is written for a character is not the
beginning of what is written for another one: a character that stands for itself is not a backslash,
the short escapes differ in their letter, and the digits of a code point end at the brace. A
delimiter inside is written with a backslash, so the first delimiter that stands for itself is the
closing one.
-/

namespace Clausal.Text

variable {c d : Char} {u v cs ds : List Char} {m n : Nat}

/-- Two texts that run up to where they stop are the same, if they are so with what follows. -/
theorem append_injective_of_stops {p : Char → Bool} {a b : List Char} (ha : ∀ c ∈ a, p c = true)
    (hb : ∀ c ∈ b, p c = true) (hu : ∀ c ∈ u.head?, p c = false) (hv : ∀ c ∈ v.head?, p c = false)
    (h : a ++ u = b ++ v) : a = b ∧ u = v := by
  have hnone {w : List Char} (hw : ∀ c ∈ w.head?, p c = false) : w.takeWhile p = [] := by
    cases w with
    | nil => rfl
    | cons c w => exact List.takeWhile_cons_of_neg (by simp [hw c rfl])
  have htaken := congrArg (List.takeWhile p) h
  rw [List.takeWhile_append_of_pos ha, List.takeWhile_append_of_pos hb, hnone hu, hnone hv,
    List.append_nil, List.append_nil] at htaken
  subst htaken
  exact ⟨rfl, List.append_cancel_left h⟩

section Hexadecimal

theorem toDigits_induction {P : Nat → Prop} (small : ∀ n < 16, P n)
    (large : ∀ n, 16 ≤ n → P (n / 16) → P n) (n : Nat) : P n := by
  induction n using Nat.strongRecOn with
  | ind n ih =>
      rcases Nat.lt_or_ge n 16 with hlt | hge
      · exact small n hlt
      · exact large n hge (ih (n / 16) (by omega))

theorem hexDigits_of_lt (h : n < 16) : hexDigits n = [n.digitChar] := Nat.toDigits_of_lt_base h

theorem hexDigits_of_le (h : 16 ≤ n) :
    hexDigits n = hexDigits (n / 16) ++ [(n % 16).digitChar] :=
  Nat.toDigits_of_base_le (by decide) h

theorem exists_of_mem_hexDigits (h : c ∈ hexDigits n) : ∃ k < 16, c = k.digitChar := by
  induction n using toDigits_induction with
  | small n hlt =>
      rw [hexDigits_of_lt hlt] at h
      exact ⟨n, hlt, List.mem_singleton.mp h⟩
  | large n hge ih =>
      rw [hexDigits_of_le hge, List.mem_append, List.mem_singleton] at h
      rcases h with h | h
      · exact ih h
      · exact ⟨n % 16, Nat.mod_lt n (by decide), h⟩

theorem ne_brace_of_mem_hexDigits (n : Nat) : ∀ c ∈ hexDigits n, (c != '\x7d') = true := by
  intro c hc
  obtain ⟨k, hk, rfl⟩ := exists_of_mem_hexDigits hc
  have hnone : ∀ k < 16, (Nat.digitChar k != '\x7d') = true := by decide
  exact hnone k hk

theorem digitChar_injective (hm : m < 16) (hn : n < 16) (h : m.digitChar = n.digitChar) :
    m = n := by
  have hall : ∀ m < 16, ∀ n < 16, Nat.digitChar m = Nat.digitChar n → m = n := by decide
  exact hall m hm n hn h

theorem hexDigits_ne_nil (n : Nat) : hexDigits n ≠ [] := Nat.toDigits_ne_nil

theorem hexDigits_injective (h : hexDigits m = hexDigits n) : m = n := by
  induction m using toDigits_induction generalizing n with
  | small m hm =>
      rw [hexDigits_of_lt hm] at h
      rcases Nat.lt_or_ge n 16 with hn | hn
      · rw [hexDigits_of_lt hn] at h
        exact digitChar_injective hm hn (List.head_eq_of_cons_eq h)
      · rw [hexDigits_of_le hn, List.singleton_eq_append_iff] at h
        rcases h with ⟨hnil, -⟩ | ⟨-, hnil⟩
        · exact absurd hnil (hexDigits_ne_nil _)
        · cases hnil
  | large m hm ih =>
      rcases Nat.lt_or_ge n 16 with hn | hn
      · rw [hexDigits_of_le hm, hexDigits_of_lt hn, List.append_eq_singleton_iff] at h
        rcases h with ⟨hnil, -⟩ | ⟨-, hnil⟩
        · exact absurd hnil (hexDigits_ne_nil _)
        · cases hnil
      · rw [hexDigits_of_le hm, hexDigits_of_le hn] at h
        obtain ⟨hrest, hlast⟩ := List.append_inj' h rfl
        have hhigh := ih hrest
        have hlow := digitChar_injective (Nat.mod_lt m (by decide)) (Nat.mod_lt n (by decide))
          (List.head_eq_of_cons_eq hlast)
        omega

end Hexadecimal

/-- The letters of the short escapes, and what they stand for. -/
def shortEscapes : List (Char × Char) :=
  [('0', '\x00'), ('t', '\t'), ('r', '\r'), ('n', '\n'), ('\\', '\\'), ('"', '"')]

theorem letter_ne_u : ∀ e ∈ shortEscapes, e.1 ≠ 'u' := by decide

theorem shortEscapes_injective :
    ∀ e ∈ shortEscapes, ∀ e' ∈ shortEscapes, e.1 = e'.1 → e.2 = e'.2 := by decide

/-- How a character is written inside quotes: as it is, by a short escape, or by its code point. -/
inductive Writes (c : Char) : List Char → Prop
  | plain (backslash : c ≠ '\\') (delimiter : c ≠ '"') : Writes c [c]
  | short {letter : Char} (listed : (letter, c) ∈ shortEscapes) : Writes c ['\\', letter]
  | point : Writes c ('\\' :: 'u' :: '\x7b' :: (hexDigits c.toNat ++ ['\x7d']))

theorem writes_quotedChar (c : Char) : Writes c (quotedChar '"' c) := by
  unfold quotedChar
  by_cases hescaped : c ∈ shortEscapes.map Prod.snd
  · simp only [shortEscapes, List.map_cons, List.map_nil, List.mem_cons, List.not_mem_nil,
      or_false] at hescaped
    rcases hescaped with rfl | rfl | rfl | rfl | rfl | rfl
    all_goals exact .short (by decide)
  · simp only [shortEscapes, List.map_cons, List.map_nil, List.mem_cons, List.not_mem_nil,
      or_false, not_or] at hescaped
    obtain ⟨hnul, htab, hreturn, hend, hbackslash, hdelimiter⟩ := hescaped
    rw [if_neg hnul, if_neg htab, if_neg hreturn, if_neg hend, if_neg hbackslash,
      if_neg hdelimiter]
    split
    · exact .plain hbackslash hdelimiter
    · exact .point

/-- What is written for a character tells it, whatever follows. -/
theorem Writes.injective {p p' : List Char} (h : Writes c p) (h' : Writes d p')
    (heq : p ++ u = p' ++ v) : c = d ∧ u = v := by
  cases h with
  | plain hbackslash hdelimiter =>
      cases h' with
      | plain => exact List.cons.inj heq
      | short => exact absurd (List.head_eq_of_cons_eq heq) hbackslash
      | point => exact absurd (List.head_eq_of_cons_eq heq) hbackslash
  | @short letter hlisted =>
      cases h' with
      | plain hbackslash => exact absurd (List.head_eq_of_cons_eq heq).symm hbackslash
      | @short letter' hlisted' =>
          simp only [List.cons_append, List.nil_append, List.cons.injEq, true_and] at heq
          exact ⟨shortEscapes_injective _ hlisted _ hlisted' heq.1, heq.2⟩
      | point =>
          simp only [List.cons_append, List.cons.injEq, true_and] at heq
          exact absurd heq.1 (letter_ne_u _ hlisted)
  | point =>
      cases h' with
      | plain hbackslash => exact absurd (List.head_eq_of_cons_eq heq).symm hbackslash
      | short hlisted =>
          simp only [List.cons_append, List.cons.injEq, true_and] at heq
          exact absurd heq.1.symm (letter_ne_u _ hlisted)
      | point =>
          simp only [List.cons_append, List.append_assoc, List.nil_append, List.cons.injEq,
            true_and] at heq
          obtain ⟨hdigits, hrest⟩ := append_injective_of_stops (p := (· != '\x7d'))
            (ne_brace_of_mem_hexDigits c.toNat) (ne_brace_of_mem_hexDigits d.toNat)
            (by simp) (by simp) heq
          exact ⟨Char.toNat_inj.mp (hexDigits_injective hdigits), (List.cons.inj hrest).2⟩

/-- The delimiter does not stand for itself inside quotes. -/
theorem Writes.ne_delimiter {p : List Char} (h : Writes c p) : p ++ u ≠ '"' :: v := by
  intro heq
  cases h with
  | plain hbackslash hdelimiter => exact hdelimiter (List.head_eq_of_cons_eq heq)
  | short => exact absurd (List.head_eq_of_cons_eq heq) (by decide)
  | point => exact absurd (List.head_eq_of_cons_eq heq) (by decide)

theorem flatMap_quotedChar_injective
    (h : cs.flatMap (quotedChar '"') ++ '"' :: u = ds.flatMap (quotedChar '"') ++ '"' :: v) :
    cs = ds ∧ u = v := by
  induction cs generalizing ds with
  | nil =>
      cases ds with
      | nil => exact ⟨rfl, (List.cons.inj h).2⟩
      | cons d ds =>
          rw [List.flatMap_nil, List.nil_append, List.flatMap_cons, List.append_assoc] at h
          exact absurd h.symm (writes_quotedChar d).ne_delimiter
  | cons c cs ih =>
      cases ds with
      | nil =>
          rw [List.flatMap_nil, List.nil_append, List.flatMap_cons, List.append_assoc] at h
          exact absurd h (writes_quotedChar c).ne_delimiter
      | cons d ds =>
          rw [List.flatMap_cons, List.flatMap_cons, List.append_assoc, List.append_assoc] at h
          obtain ⟨rfl, hrest⟩ := (writes_quotedChar c).injective (writes_quotedChar d) h
          obtain ⟨rfl, rfl⟩ := ih hrest
          exact ⟨rfl, rfl⟩

/-- Quoted text tells what it quotes, and where it ends. -/
theorem quoted_append_injective {s t : String}
    (h : (quoted s).toList ++ u = (quoted t).toList ++ v) : s = t ∧ u = v := by
  simp only [quoted, quotedWith, String.toList_ofList, List.cons_append, List.append_assoc,
    List.nil_append, List.cons.injEq, true_and] at h
  obtain ⟨hsame, rfl⟩ := flatMap_quotedChar_injective h
  exact ⟨String.toList_inj.mp hsame, rfl⟩

end Clausal.Text
