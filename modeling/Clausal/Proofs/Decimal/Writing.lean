import Clausal.Decimal.Notation
import Clausal.Proofs.Decimal.Shortest

/-!
Numbers that are written the same way are the same. A positional text has an exact value, that of
the decimal it is written from, and the decimal is rounded to one number only; the sign and the
names of the infinities are told by the first characters. So the text of a number other than a
missing one determines its bits.
-/

namespace Clausal.Decimal

section Texts

variable {cs whole fraction digits : List Char} {c : Char}

def places (cs : List Char) : List Char := (cs.dropWhile (· != '.')).drop 1

/-- The exact value of digits with a point among them at most. -/
def textValue (cs : List Char) : ℚ :=
  Nat.ofDigitChars 10 (cs.takeWhile (· != '.') ++ places cs) 0 / 10 ^ (places cs).length

theorem textValue_of_not_mem (h : '.' ∉ cs) : textValue cs = Nat.ofDigitChars 10 cs 0 := by
  have hall : ∀ c ∈ cs, (c != '.') = true := fun c hc => bne_iff_ne.mpr fun heq => h (heq ▸ hc)
  have hplaces : places cs = [] := by
    rw [places, List.dropWhile_eq_nil_iff.mpr hall, List.drop_nil]
  rw [textValue, hplaces, List.takeWhile_eq_self_iff.mpr hall, List.append_nil, List.length_nil,
    pow_zero, div_one]

theorem textValue_point (h : '.' ∉ whole) :
    textValue (whole ++ '.' :: fraction) =
      Nat.ofDigitChars 10 (whole ++ fraction) 0 / 10 ^ fraction.length := by
  have hall : ∀ c ∈ whole, (c != '.') = true := fun c hc => bne_iff_ne.mpr fun heq => h (heq ▸ hc)
  have hplaces : places (whole ++ '.' :: fraction) = fraction := by
    rw [places, List.dropWhile_append_of_pos hall]
    rfl
  rw [textValue, hplaces, List.takeWhile_append_of_pos hall]
  simp

theorem point_not_mem (h : ∀ c ∈ cs, c.isDigit = true) : '.' ∉ cs :=
  fun hmem => absurd (h '.' hmem) (by decide)

theorem ofDigitChars_zeros_append (n : Nat) (cs : List Char) :
    Nat.ofDigitChars 10 (List.replicate n '0' ++ cs) 0 = Nat.ofDigitChars 10 cs 0 := by
  rw [Nat.ofDigitChars_append, Nat.ofDigitChars_replicate_zero, Nat.mul_zero]

theorem ofDigitChars_append_zeros (cs : List Char) (n : Nat) :
    Nat.ofDigitChars 10 (cs ++ List.replicate n '0') 0 = 10 ^ n * Nat.ofDigitChars 10 cs 0 := by
  rw [Nat.ofDigitChars_append, Nat.ofDigitChars_replicate_zero]

/-- Where the point is placed scales the digits by a power of ten. -/
theorem textValue_placePoint (hdigits : ∀ c ∈ digits, c.isDigit = true) (whole : Int) :
    textValue (placePoint false digits whole) =
      Nat.ofDigitChars 10 digits 0 * 10 ^ (whole - digits.length) := by
  have hten : (10 : ℚ) ≠ 0 := by norm_num
  unfold placePoint
  split
  · next hle =>
      obtain ⟨zeros, rfl⟩ : ∃ n : Nat, whole = -(n : Int) := ⟨(-whole).toNat, by omega⟩
      have htext : ['0', '.'] ++ List.replicate (- -(zeros : Int)).toNat '0' ++ digits =
          ['0'] ++ '.' :: (List.replicate zeros '0' ++ digits) := by simp
      have hzeros : Nat.ofDigitChars 10 (['0'] ++ (List.replicate zeros '0' ++ digits)) 0 =
          Nat.ofDigitChars 10 digits 0 := by
        rw [← List.append_assoc, List.singleton_append, ← List.replicate_succ]
        exact ofDigitChars_zeros_append (zeros + 1) digits
      rw [htext, textValue_point (by decide), hzeros, List.length_append, List.length_replicate,
        ← neg_add', zpow_neg, div_eq_mul_inv]
      norm_cast
  · split
    · next hpos hfits =>
        obtain ⟨zeros, rfl⟩ : ∃ n : Nat, whole = digits.length + n :=
          ⟨whole.toNat - digits.length, by omega⟩
        have htext : digits ++ List.replicate (((digits.length : Int) + zeros).toNat -
            digits.length) '0' ++ (if false = true then ['.', '0'] else []) =
            digits ++ List.replicate zeros '0' := by
          rw [← Nat.cast_add, Int.toNat_natCast, Nat.add_sub_cancel_left]
          simp
        have hplain : '.' ∉ digits ++ List.replicate zeros '0' := by
          refine point_not_mem fun c hc => ?_
          rcases List.mem_append.mp hc with hc | hc
          · exact hdigits c hc
          · rw [List.eq_of_mem_replicate hc]
            rfl
        rw [htext, textValue_of_not_mem hplain, ofDigitChars_append_zeros, add_sub_cancel_left,
          zpow_natCast]
        push_cast
        ring
    · next hpos hcut =>
        obtain ⟨k, rfl⟩ : ∃ k : Nat, whole = k := ⟨whole.toNat, by omega⟩
        rw [Int.toNat_natCast] at hcut ⊢
        have hplain : '.' ∉ digits.take k :=
          point_not_mem fun c hc => hdigits c (List.mem_of_mem_take hc)
        have hlength : (digits.drop k).length = digits.length - k := List.length_drop
        have hpower : (k : Int) - digits.length = -((digits.length - k : Nat) : Int) := by omega
        rw [List.append_assoc, List.singleton_append, textValue_point hplain,
          List.take_append_drop, hlength, hpower, zpow_neg, zpow_natCast, div_eq_mul_inv]

/-- A positional text starts with a digit, and has digits and a point only. -/
theorem placePoint_shape (hdigits : ∀ c ∈ digits, c.isDigit = true) (whole : Int) :
    (∃ c cs, placePoint false digits whole = c :: cs ∧ c.isDigit = true) ∧
      ∀ c ∈ placePoint false digits whole, c.isDigit = true ∨ c = '.' := by
  have hzero {n : Nat} {c : Char} (hc : c ∈ List.replicate n '0') : c.isDigit = true := by
    rw [List.eq_of_mem_replicate hc]
    rfl
  unfold placePoint
  split
  · refine ⟨⟨'0', _, rfl, rfl⟩, fun c hc => ?_⟩
    simp only [List.mem_append, List.mem_cons, List.not_mem_nil, or_false] at hc
    rcases hc with ((rfl | rfl) | hc) | hc
    · exact .inl rfl
    · exact .inr rfl
    · exact .inl (hzero hc)
    · exact .inl (hdigits c hc)
  · split
    · next hpos hfits =>
        constructor
        · cases digits with
          | nil =>
              obtain ⟨k, hk⟩ : ∃ k, whole.toNat = k + 1 := ⟨whole.toNat - 1, by omega⟩
              exact ⟨'0', List.replicate k '0', by simp [hk, List.replicate_succ], rfl⟩
          | cons c cs => exact ⟨c, _, rfl, hdigits c List.mem_cons_self⟩
        · intro c hc
          simp only [Bool.false_eq_true, if_false, List.append_nil, List.mem_append] at hc
          exact .inl (hc.elim (hdigits c) hzero)
    · next hpos hcut =>
        constructor
        · cases digits with
          | nil => simp at hcut
          | cons c cs =>
              obtain ⟨k, hk⟩ : ∃ k, whole.toNat = k + 1 := ⟨whole.toNat - 1, by omega⟩
              rw [hk, List.take_succ_cons]
              exact ⟨c, _, rfl, hdigits c List.mem_cons_self⟩
        · intro c hc
          simp only [List.mem_append, List.mem_singleton] at hc
          rcases hc with (hc | rfl) | hc
          · exact .inl (hdigits c (List.mem_of_mem_take hc))
          · exact .inr rfl
          · exact .inl (hdigits c (List.mem_of_mem_drop hc))

end Texts

namespace Numeral

/-- The zeros that are left out are the factor of ten that the exponent loses. -/
theorem exists_significant (x : Numeral) :
    ∃ zeros, Nat.toDigits 10 x.digits = x.significant ++ List.replicate zeros '0' := by
  have hsplit : Nat.toDigits 10 x.digits = x.significant ++
      (Nat.toDigits 10 x.digits).rtakeWhile (· == '0') :=
    List.rdropWhile_append_rtakeWhile.symm
  have hzeros : ∀ c ∈ (Nat.toDigits 10 x.digits).rtakeWhile (· == '0'), c = '0' := fun c hc =>
    beq_iff_eq.mp (List.mem_rtakeWhile_imp (p := (· == '0')) hc)
  rw [List.eq_replicate_of_mem hzeros] at hsplit
  exact ⟨_, hsplit⟩

theorem isDigit_of_mem_significant (x : Numeral) : ∀ c ∈ x.significant, c.isDigit = true := by
  intro c hc
  obtain ⟨zeros, hdigits⟩ := x.exists_significant
  have hmem : c ∈ Nat.toDigits 10 x.digits := hdigits ▸ List.mem_append_left _ hc
  exact Nat.isDigit_of_mem_toDigits (by decide) (le_refl 10) hmem

theorem textValue_writeNumeral (x : Numeral) :
    textValue (Notation.plain.writeNumeral x) = x.value := by
  obtain ⟨zeros, hdigits⟩ := x.exists_significant
  have hten : (10 : ℚ) ≠ 0 := by norm_num
  have hvalue : x.digits = 10 ^ zeros * Nat.ofDigitChars 10 x.significant 0 := by
    rw [← ofDigitChars_append_zeros, ← hdigits, Nat.ofDigitChars_ten_toDigits]
  have hlength : (Nat.toDigits 10 x.digits).length = x.significant.length + zeros := by
    rw [hdigits, List.length_append, List.length_replicate]
  have htext : Notation.plain.writeNumeral x = placePoint false x.significant
      ((Nat.toDigits 10 x.digits).length + x.exponent) := rfl
  rw [htext, textValue_placePoint x.isDigit_of_mem_significant, hlength, value, hvalue]
  have hpower : ((x.significant.length + zeros : Nat) : Int) + x.exponent - x.significant.length =
      zeros + x.exponent := by omega
  rw [hpower, zpow_add₀ hten, zpow_natCast]
  push_cast
  ring

end Numeral

namespace Binary64

/-- The text of a number without its sign. -/
def body : Binary64 → List Char
  | finite _ m q => if m = 0 then ['0'] else Notation.plain.writeNumeral (shortest m q)
  | infinite _ => ['i', 'n', 'f']
  | notANumber => ['N', 'a', 'N']

def isNegative : Binary64 → Bool
  | finite negative _ _ | infinite negative => negative
  | notANumber => false

end Binary64

open Binary64

theorem toList_write (x : Float) :
    (Notation.plain.write x).toList =
      (if (ofFloat x).isNegative then ['-'] else []) ++ (ofFloat x).body := by
  unfold Notation.write
  cases ofFloat x with
  | finite negative m q => cases negative <;> simp [isNegative, body, Notation.plain]
  | infinite negative => cases negative <;> rfl
  | notANumber => rfl

/-- The text of a magnitude starts with a digit, and has digits and a point only. -/
theorem body_shape (negative : Bool) (m : Nat) (q : Int) :
    (∃ c cs, (finite negative m q).body = c :: cs ∧ c.isDigit = true) ∧
      ∀ c ∈ (finite negative m q).body, c.isDigit = true ∨ c = '.' := by
  simp only [body]
  split
  · exact ⟨⟨'0', [], rfl, rfl⟩, by simp⟩
  · exact placePoint_shape (shortest m q).isDigit_of_mem_significant _

/-- The value of a magnitude is rounded to it. -/
theorem textValue_body (negative : Bool) {m : Nat} {q : Int} (h : Canonical m q) :
    (Rounding.of m q).Holds (textValue (finite negative m q).body) := by
  have hne : m ≠ 0 := Nat.ne_of_gt h.pos
  simp only [body, if_neg hne, Numeral.textValue_writeNumeral]
  exact holds_shortest h

theorem textValue_zero (negative : Bool) (q : Int) :
    textValue (finite negative 0 q).body = 0 := by
  have hplain : textValue ['0'] = Nat.ofDigitChars 10 ['0'] 0 :=
    textValue_of_not_mem (by decide)
  exact hplain.trans (by simp [Nat.ofDigitChars])

theorem body_ne_zero (negative negative' : Bool) {m : Nat} {q q' : Int} (h : Canonical m q) :
    (finite negative m q).body ≠ (finite negative' 0 q').body := by
  intro heq
  have hle := (textValue_body negative h).lower_le
  rw [heq, textValue_zero] at hle
  exact absurd (Rounding.lower_pos h) (not_lt.mpr hle)

/-- The text of a magnitude tells its mantissa and its exponent. -/
theorem body_finite_injective {negative negative' : Bool} {m m' : Nat} {q q' : Int}
    (h : (m = 0 ∧ q = leastExponent) ∨ Canonical m q)
    (h' : (m' = 0 ∧ q' = leastExponent) ∨ Canonical m' q')
    (hbody : (finite negative m q).body = (finite negative' m' q').body) : m = m' ∧ q = q' := by
  rcases h with ⟨rfl, rfl⟩ | h
  · rcases h' with ⟨rfl, rfl⟩ | h'
    · exact ⟨rfl, rfl⟩
    · exact absurd hbody.symm (body_ne_zero negative' negative h')
  · rcases h' with ⟨rfl, rfl⟩ | h'
    · exact absurd hbody (body_ne_zero negative negative' h)
    · -- One decimal is rounded to both.
      have hv' := textValue_body negative' h'
      rw [← hbody] at hv'
      exact Rounding.unique h h' (textValue_body negative h) hv'

/-- The text of a number starts with a digit or with the name of infinity, after its sign. -/
theorem body_head {b : Binary64} (hb : b ≠ notANumber) :
    ∃ c cs, b.body = c :: cs ∧ (c.isDigit = true ∨ c = 'i') := by
  cases b with
  | finite negative m q =>
      obtain ⟨c, cs, heq, hc⟩ := (body_shape negative m q).1
      exact ⟨c, cs, heq, .inl hc⟩
  | infinite negative => exact ⟨'i', ['n', 'f'], rfl, .inr rfl⟩
  | notANumber => exact absurd rfl hb

theorem body_finite_ne_infinite (negative negative' : Bool) (m : Nat) (q : Int) :
    (finite negative m q).body ≠ (infinite negative').body := by
  intro h
  obtain ⟨c, cs, heq, hc⟩ := (body_shape negative m q).1
  obtain rfl : c = 'i' := List.head_eq_of_cons_eq (heq.symm.trans h)
  exact absurd hc (by decide)

/-- The signs of two texts agree, and so does what is after them. -/
theorem signed_injective {b b' : Binary64} (hb : b ≠ notANumber) (hb' : b' ≠ notANumber)
    (h : (if b.isNegative then ['-'] else []) ++ b.body =
      (if b'.isNegative then ['-'] else []) ++ b'.body) :
    b.isNegative = b'.isNegative ∧ b.body = b'.body := by
  have hminus : ∀ {c : Char}, c.isDigit = true ∨ c = 'i' → c ≠ '-' := by
    rintro c hc rfl
    exact absurd hc (by decide)
  obtain ⟨c, cs, hbody, hc⟩ := body_head hb
  obtain ⟨c', cs', hbody', hc'⟩ := body_head hb'
  cases hsign : b.isNegative <;> cases hsign' : b'.isNegative <;>
    simp only [hsign, hsign', if_true, if_false, Bool.false_eq_true, List.nil_append,
      List.singleton_append] at h
  · exact ⟨rfl, h⟩
  · rw [hbody] at h
    exact absurd (List.head_eq_of_cons_eq h) (hminus hc)
  · rw [hbody'] at h
    exact absurd (List.head_eq_of_cons_eq h).symm (hminus hc')
  · exact ⟨rfl, (List.cons.inj h).2⟩

/-- The text of a number determines it. -/
theorem write_injective {x y : Float} (hnumber : x.isNaN = false) (hnumber' : y.isNaN = false)
    (h : Notation.plain.write x = Notation.plain.write y) : x = y := by
  have hx := ofFloat_ne_notANumber hnumber
  have hy := ofFloat_ne_notANumber hnumber'
  have htexts := congrArg String.toList h
  rw [toList_write, toList_write] at htexts
  obtain ⟨hsign, hbody⟩ := signed_injective hx hy htexts
  have hsame : ofFloat x = ofFloat y := by
    cases hb : ofFloat x with
    | notANumber => exact absurd hb hx
    | infinite negative =>
        cases hb' : ofFloat y with
        | notANumber => exact absurd hb' hy
        | infinite negative' =>
            rw [hb, hb'] at hsign
            exact congrArg infinite hsign
        | finite negative' m' q' =>
            rw [hb, hb'] at hbody
            exact absurd hbody.symm (body_finite_ne_infinite _ _ _ _)
    | finite negative m q =>
        cases hb' : ofFloat y with
        | notANumber => exact absurd hb' hy
        | infinite negative' =>
            rw [hb, hb'] at hbody
            exact absurd hbody (body_finite_ne_infinite _ _ _ _)
        | finite negative' m' q' =>
            rw [hb, hb'] at hbody hsign
            obtain ⟨rfl, rfl⟩ :=
              body_finite_injective (canonical_ofBits hb) (canonical_ofBits hb') hbody
            obtain rfl : negative = negative' := hsign
            rfl
  have hbits : x.toBits.toNat = y.toBits.toNat :=
    ofBits_injective (UInt64.toNat_lt _) (UInt64.toNat_lt _) hx hsame
  exact Float.toBits_inj.mp (UInt64.toNat_inj.mp hbits)

/-- The text of a number starts with its sign, a digit or the name of infinity, and has nothing else
in it than those and a point. -/
theorem write_shape {x : Float} (hnumber : x.isNaN = false) :
    (∃ c cs, (Notation.plain.write x).toList = c :: cs ∧
        (c.isDigit = true ∨ c ∈ ['-', 'i'])) ∧
      ∀ c ∈ (Notation.plain.write x).toList, c.isDigit = true ∨ c ∈ ['-', '.', 'i', 'n', 'f'] := by
  have hx := ofFloat_ne_notANumber hnumber
  have hbody : ∀ c ∈ (ofFloat x).body, c.isDigit = true ∨ c ∈ ['-', '.', 'i', 'n', 'f'] := by
    cases hb : ofFloat x with
    | finite negative m q =>
        intro c hc
        exact ((body_shape negative m q).2 c hc).imp_right fun heq => by simp [heq]
    | infinite negative => simp [body]
    | notANumber => exact absurd hb hx
  rw [toList_write]
  cases (ofFloat x).isNegative with
  | true =>
      refine ⟨⟨'-', _, rfl, .inr (by simp)⟩, fun c hc => ?_⟩
      rcases List.mem_cons.mp hc with rfl | hc
      · exact .inr (by simp)
      · exact hbody c hc
  | false =>
      obtain ⟨c, cs, heq, hc⟩ := body_head hx
      exact ⟨⟨c, cs, heq, hc.imp_right fun hi => by simp [hi]⟩, hbody⟩

end Clausal.Decimal
