import Mathlib
import Clausal.Decimal.Shortest

/-!
Which decimals are rounded to which number. Each positive number has one mantissa and one exponent,
and the intervals of the decimals that are rounded to two numbers have an end in common at most; the
end belongs to one of the two only, since one of two neighbours has an odd mantissa. So a decimal
tells the number whose interval it lies in.
-/

namespace Clausal.Decimal

def Numeral.value (x : Numeral) : ℚ := x.digits * 10 ^ x.exponent

section Scaling

variable {a b : Nat} {p q : Int}

theorem zpow_mul_pow_toNat {x : ℚ} (hx : x ≠ 0) (n : Int) :
    x ^ n * x ^ (-n).toNat = x ^ n.toNat := by
  rw [← zpow_natCast, ← zpow_natCast, ← zpow_add₀ hx]
  congr 1
  omega

/-- The factor that makes a decimal and a binary number whole. -/
def scale (p q : Int) : ℚ := 10 ^ (-p).toNat * 2 ^ (-q).toNat

theorem scale_pos (p q : Int) : 0 < scale p q := by
  unfold scale
  positivity

theorem decimal_scale (a : Nat) (p q : Int) :
    (a : ℚ) * 10 ^ p * scale p q = ((a * Nat.pow 10 p.toNat) <<< (-q).toNat : Nat) := by
  have hten := zpow_mul_pow_toNat (x := 10) (by norm_num) p
  calc (a : ℚ) * 10 ^ p * scale p q
      = a * (10 ^ p * 10 ^ (-p).toNat) * 2 ^ (-q).toNat := by rw [scale]; ring
    _ = ((a * Nat.pow 10 p.toNat) <<< (-q).toNat : Nat) := by
        rw [hten, Nat.shiftLeft_eq, Nat.pow_eq]
        push_cast
        rfl

theorem binary_scale (b : Nat) (p q : Int) :
    (b : ℚ) * 2 ^ q * scale p q = ((b * Nat.pow 10 (-p).toNat) <<< q.toNat : Nat) := by
  have htwo := zpow_mul_pow_toNat (x := 2) (by norm_num) q
  calc (b : ℚ) * 2 ^ q * scale p q
      = b * 10 ^ (-p).toNat * (2 ^ q * 2 ^ (-q).toNat) := by rw [scale]; ring
    _ = ((b * Nat.pow 10 (-p).toNat) <<< q.toNat : Nat) := by
        rw [htwo, Nat.shiftLeft_eq, Nat.pow_eq]
        push_cast
        rfl

/-- The comparison is one of the exact values. -/
theorem compareScaled_spec (a : Nat) (p : Int) (b : Nat) (q : Int) :
    (compareScaled a p b q = .lt ↔ (a : ℚ) * 10 ^ p < b * 2 ^ q) ∧
      (compareScaled a p b q = .eq ↔ (a : ℚ) * 10 ^ p = b * 2 ^ q) ∧
      (compareScaled a p b q = .gt ↔ (b : ℚ) * 2 ^ q < a * 10 ^ p) := by
  have hpos := scale_pos p q
  have hdecimal := decimal_scale a p q
  have hbinary := binary_scale b p q
  refine ⟨?_, ?_, ?_⟩
  · rw [← mul_lt_mul_iff_left₀ hpos, hdecimal, hbinary, Nat.cast_lt]
    exact Nat.compare_eq_lt
  · rw [← mul_left_inj' hpos.ne', hdecimal, hbinary, Nat.cast_inj]
    exact Nat.compare_eq_eq
  · rw [← mul_lt_mul_iff_left₀ hpos, hdecimal, hbinary, Nat.cast_lt]
    exact Nat.compare_eq_gt

end Scaling

namespace Rounding

variable {r : Rounding} {x : Numeral} {v : ℚ}

def lower (r : Rounding) : ℚ := r.low * 2 ^ r.exponent

def upper (r : Rounding) : ℚ := r.high * 2 ^ r.exponent

/-- The value lies between the ends, or is an end that belongs to the interval. -/
structure Holds (r : Rounding) (v : ℚ) : Prop where
  lower_le : r.lower ≤ v
  le_upper : v ≤ r.upper
  closed : v = r.lower ∨ v = r.upper → r.closed = true

theorem holds_of_contains (h : r.contains x = true) : r.Holds x.value := by
  obtain ⟨hlt, heq, hgt⟩ := compareScaled_spec x.digits x.exponent r.low r.exponent
  obtain ⟨hlt', heq', hgt'⟩ := compareScaled_spec x.digits x.exponent r.high r.exponent
  unfold contains at h
  split at h
  · next hlow hhigh =>
      have hlower : r.lower < x.value := hgt.mp hlow
      have hupper : x.value < r.upper := hlt'.mp hhigh
      refine ⟨hlower.le, hupper.le, ?_⟩
      rintro (hend | hend)
      · exact absurd hend hlower.ne'
      · exact absurd hend hupper.ne
  · next hlow hhigh =>
      have hlower : x.value = r.lower := heq.mp hlow
      have hupper : x.value < r.upper := hlt'.mp hhigh
      exact ⟨hlower.ge, hupper.le, fun _ => h⟩
  · next hlow hhigh =>
      have hlower : r.lower < x.value := hgt.mp hlow
      have hupper : x.value = r.upper := heq'.mp hhigh
      exact ⟨hlower.le, hupper.le, fun _ => h⟩
  · contradiction

theorem contains_of_between (hlower : r.lower < x.value) (hupper : x.value < r.upper) :
    r.contains x = true := by
  have hlow := (compareScaled_spec x.digits x.exponent r.low r.exponent).2.2.mpr hlower
  have hhigh := (compareScaled_spec x.digits x.exponent r.high r.exponent).1.mpr hupper
  rw [contains, hlow, hhigh]

end Rounding

namespace Binary64

/-- The one way in which a positive number is a mantissa and an exponent: only the numbers of the
least exponent have a mantissa below the least normal one. -/
structure Canonical (m : Nat) (q : Int) : Prop where
  pos : 0 < m
  lt : m < 2 * leastNormal
  least : leastExponent ≤ q
  greatest : q ≤ 971
  normal : leastExponent < q → leastNormal ≤ m

theorem leastNormal_eq : leastNormal = 2 ^ 52 := by decide

end Binary64

open Binary64

section Intervals

variable {m m' : Nat} {q q' : Int} {v : ℚ}

theorem Rounding.low_lt (h : Canonical m q) : (Rounding.of m q).low < 4 * m := by
  have hpos := h.pos
  simp only [Rounding.of]
  split <;> omega

theorem Rounding.le_low (m : Nat) (q : Int) : 4 * m - 2 ≤ (Rounding.of m q).low := by
  simp only [Rounding.of]
  split <;> omega

/-- In the same binade the interval of a larger mantissa is higher. -/
theorem Rounding.upper_le_lower_of_mantissa (hlt : m < m') :
    (Rounding.of m q).upper ≤ (Rounding.of m' q).lower ∧
      ((Rounding.of m q).upper = (Rounding.of m' q).lower →
        (Rounding.of m q).closed = false ∨ (Rounding.of m' q).closed = false) := by
  have hunit : (0 : ℚ) < 2 ^ (q - 2) := by positivity
  have hlow := Rounding.le_low m' q
  have hends : (Rounding.of m q).high ≤ (Rounding.of m' q).low := by
    have hhigh : (Rounding.of m q).high = 4 * m + 2 := rfl
    omega
  constructor
  · exact mul_le_mul_of_nonneg_right (Nat.cast_le.mpr hends) hunit.le
  · intro hmeet
    have heq : 4 * m + 2 = (Rounding.of m' q).low :=
      Nat.cast_injective (mul_right_cancel₀ hunit.ne' hmeet)
    simp only [Rounding.of] at heq ⊢
    rcases Nat.mod_two_eq_zero_or_one m with heven | hodd
    · right
      split at heq <;> simp <;> omega
    · left
      simp [hodd]

/-- The interval of a number with a larger exponent is higher; the gap below the foot of its binade
is that of the binade below. -/
theorem Rounding.upper_le_lower_of_exponent (h : Canonical m q) (h' : Canonical m' q')
    (hlt : q < q') :
    (Rounding.of m q).upper ≤ (Rounding.of m' q').lower ∧
      ((Rounding.of m q).upper = (Rounding.of m' q').lower → (Rounding.of m q).closed = false) := by
  have hm := h.lt
  have hm' := h'.normal (lt_of_le_of_lt h.least hlt)
  rw [leastNormal_eq] at hm hm'
  -- At the foot of a binade the interval reaches down by a quarter; elsewhere the mantissa is
  -- larger.
  have hlow : 2 ^ 54 - 1 ≤ (Rounding.of m' q').low := by
    by_cases hfoot : m' = 2 ^ 52
    · have hcond : m' = leastNormal ∧ leastExponent < q' :=
        ⟨hfoot.trans leastNormal_eq.symm, lt_of_le_of_lt h.least hlt⟩
      simp only [Rounding.of, if_pos hcond]
      omega
    · have hle := Rounding.le_low m' q'
      omega
  have hunit : (0 : ℚ) < 2 ^ (q - 2) := by positivity
  have hgap : 2 * (2 : ℚ) ^ (q - 2) ≤ 2 ^ (q' - 2) := by
    calc 2 * (2 : ℚ) ^ (q - 2) = 2 ^ (q - 2 + 1) := by rw [zpow_add_one₀ (by norm_num), mul_comm]
      _ ≤ 2 ^ (q' - 2) := zpow_le_zpow_right₀ (by norm_num) (by omega)
  have hlower : ((2 * (Rounding.of m' q').low : Nat) : ℚ) * 2 ^ (q - 2) ≤
      (Rounding.of m' q').lower := by
    calc ((2 * (Rounding.of m' q').low : Nat) : ℚ) * 2 ^ (q - 2)
        = (Rounding.of m' q').low * (2 * 2 ^ (q - 2)) := by push_cast; ring
      _ ≤ (Rounding.of m' q').low * 2 ^ (q' - 2) :=
          mul_le_mul_of_nonneg_left hgap (Nat.cast_nonneg _)
  have hupper : (Rounding.of m q).upper = ((4 * m + 2 : Nat) : ℚ) * 2 ^ (q - 2) := rfl
  have hends : 4 * m + 2 ≤ 2 * (Rounding.of m' q').low := by omega
  constructor
  · rw [hupper]
    exact (mul_le_mul_of_nonneg_right (Nat.cast_le.mpr hends) hunit.le).trans hlower
  · intro hmeet
    have hback : 2 * (Rounding.of m' q').low ≤ 4 * m + 2 := by
      rw [← hmeet, hupper] at hlower
      exact Nat.cast_le.mp (le_of_mul_le_mul_right hlower hunit)
    -- Only the largest mantissa reaches so far.
    have hodd : m % 2 = 1 := by omega
    simp [Rounding.of, hodd]

/-- No value is rounded to two numbers. -/
theorem Rounding.not_holds_both (h : Canonical m q) (h' : Canonical m' q')
    (hlt : q < q' ∨ q = q' ∧ m < m') (hv : (Rounding.of m q).Holds v)
    (hv' : (Rounding.of m' q').Holds v) : False := by
  have hapart : (Rounding.of m q).upper ≤ (Rounding.of m' q').lower ∧
      ((Rounding.of m q).upper = (Rounding.of m' q').lower →
        (Rounding.of m q).closed = false ∨ (Rounding.of m' q').closed = false) := by
    rcases hlt with hlt | ⟨rfl, hlt⟩
    · obtain ⟨hle, hmeet⟩ := Rounding.upper_le_lower_of_exponent h h' hlt
      exact ⟨hle, fun heq => .inl (hmeet heq)⟩
    · exact Rounding.upper_le_lower_of_mantissa hlt
  have hupper : v = (Rounding.of m q).upper :=
    le_antisymm hv.le_upper (hapart.1.trans hv'.lower_le)
  have hlower : v = (Rounding.of m' q').lower :=
    le_antisymm (hv.le_upper.trans hapart.1) hv'.lower_le
  rcases hapart.2 (hupper.symm.trans hlower) with hopen | hopen
  · rw [hv.closed (.inr hupper)] at hopen
    contradiction
  · rw [hv'.closed (.inl hlower)] at hopen
    contradiction

theorem Rounding.unique (h : Canonical m q) (h' : Canonical m' q')
    (hv : (Rounding.of m q).Holds v) (hv' : (Rounding.of m' q').Holds v) : m = m' ∧ q = q' := by
  rcases lt_trichotomy q q' with hlt | rfl | hlt
  · exact (Rounding.not_holds_both h h' (.inl hlt) hv hv').elim
  · rcases lt_trichotomy m m' with hlt | rfl | hlt
    · exact (Rounding.not_holds_both h h' (.inr ⟨rfl, hlt⟩) hv hv').elim
    · exact ⟨rfl, rfl⟩
    · exact (Rounding.not_holds_both h' h (.inr ⟨rfl, hlt⟩) hv' hv).elim
  · exact (Rounding.not_holds_both h' h (.inl hlt) hv' hv).elim

theorem Rounding.lower_pos (h : Canonical m q) : 0 < (Rounding.of m q).lower := by
  have hpos := h.pos
  have hlow := Rounding.le_low m q
  have hunit : (0 : ℚ) < 2 ^ (q - 2) := by positivity
  exact mul_pos (Nat.cast_pos.mpr (by omega)) hunit

end Intervals

namespace Binary64

variable {bits bits' : Nat}

/-- The fields of the bits tell what they stand for. -/
theorem ofBits_cases (bits : Nat) :
    (bits / 2 ^ 52 % 2048 = 2047 ∧ bits % 2 ^ 52 = 0 ∧
        ofBits bits = infinite (bits / 2 ^ 63 % 2 == 1)) ∨
      (bits / 2 ^ 52 % 2048 = 2047 ∧ bits % 2 ^ 52 ≠ 0 ∧ ofBits bits = notANumber) ∨
      (bits / 2 ^ 52 % 2048 = 0 ∧
        ofBits bits = finite (bits / 2 ^ 63 % 2 == 1) (bits % 2 ^ 52) leastExponent) ∨
      (bits / 2 ^ 52 % 2048 ≠ 0 ∧ bits / 2 ^ 52 % 2048 ≠ 2047 ∧
        ofBits bits = finite (bits / 2 ^ 63 % 2 == 1) (2 ^ 52 + bits % 2 ^ 52)
          (leastExponent + (bits / 2 ^ 52 % 2048 - 1 : Nat))) := by
  simp only [ofBits, Nat.shiftRight_eq_div_pow, leastNormal_eq]
  by_cases hspecial : bits / 2 ^ 52 % 2048 = 2047
  · by_cases hfraction : bits % 2 ^ 52 = 0
    · exact .inl ⟨hspecial, hfraction, by rw [if_pos hspecial, if_pos hfraction]⟩
    · exact .inr (.inl ⟨hspecial, hfraction, by rw [if_pos hspecial, if_neg hfraction]⟩)
  · by_cases hsmall : bits / 2 ^ 52 % 2048 = 0
    · exact .inr (.inr (.inl ⟨hsmall, by rw [if_neg hspecial, if_pos hsmall]⟩))
    · exact .inr (.inr (.inr ⟨hsmall, hspecial, by rw [if_neg hspecial, if_neg hsmall]⟩))

/-- A number that bits stand for is zero, or its mantissa and exponent are the only ones. -/
theorem canonical_ofBits {negative : Bool} {m : Nat} {q : Int}
    (h : ofBits bits = finite negative m q) :
    (m = 0 ∧ q = leastExponent) ∨ Canonical m q := by
  have hleast : leastExponent = -1074 := rfl
  rcases ofBits_cases bits with ⟨-, -, heq⟩ | ⟨-, -, heq⟩ | ⟨-, heq⟩ | ⟨hlow, hhigh, heq⟩
  · cases heq.symm.trans h
  · cases heq.symm.trans h
  · obtain ⟨-, rfl, rfl⟩ := finite.inj (heq.symm.trans h)
    rcases Nat.eq_zero_or_pos (bits % 2 ^ 52) with hzero | hpos
    · exact .inl ⟨hzero, rfl⟩
    · refine .inr ⟨hpos, ?_, le_refl _, by omega, fun hlt => absurd hlt (lt_irrefl _)⟩
      rw [leastNormal_eq]
      omega
  · obtain ⟨-, rfl, rfl⟩ := finite.inj (heq.symm.trans h)
    rw [hleast]
    refine .inr ⟨by omega, ?_, by omega, by omega, fun _ => ?_⟩
    · rw [leastNormal_eq]
      omega
    · rw [leastNormal_eq]
      omega

/-- No two patterns stand for the same number. -/
theorem ofBits_injective (hbits : bits < 2 ^ 64) (hbits' : bits' < 2 ^ 64)
    (hnumber : ofBits bits ≠ notANumber) (h : ofBits bits = ofBits bits') : bits = bits' := by
  have hsign : ((bits / 2 ^ 63 % 2 == 1) = (bits' / 2 ^ 63 % 2 == 1)) ↔
      bits / 2 ^ 63 = bits' / 2 ^ 63 := by
    rw [Bool.eq_iff_iff, beq_iff_eq, beq_iff_eq]
    omega
  have hleast : leastExponent = -1074 := rfl
  rcases ofBits_cases bits with ⟨hb, hf, heq⟩ | ⟨hb, hf, heq⟩ | ⟨hb, heq⟩ | ⟨hb, hb₂, heq⟩
  · rcases ofBits_cases bits' with ⟨hb', hf', heq'⟩ | ⟨-, -, heq'⟩ | ⟨-, heq'⟩ | ⟨-, -, heq'⟩ <;>
      simp only [heq, heq', infinite.injEq, hsign, reduceCtorEq] at h
    omega
  · exact absurd heq hnumber
  · rcases ofBits_cases bits' with ⟨-, -, heq'⟩ | ⟨-, -, heq'⟩ | ⟨hb', heq'⟩ | ⟨hb', hb₂', heq'⟩ <;>
      simp only [heq, heq', finite.injEq, hsign, reduceCtorEq] at h
    · omega
    · omega
  · rcases ofBits_cases bits' with ⟨-, -, heq'⟩ | ⟨-, -, heq'⟩ | ⟨hb', heq'⟩ | ⟨hb', hb₂', heq'⟩ <;>
      simp only [heq, heq', finite.injEq, hsign, reduceCtorEq] at h
    · omega
    · omega

section Missing

open Float.Model

theorem toNat_unpackExponent (b : UInt64) :
    (@UnpackedFloat.unpackExponent Format.binary64 b.toBitVec).toNat =
      b.toNat / 2 ^ 52 % 2048 := by
  simp [UnpackedFloat.unpackExponent, Nat.shiftRight_eq_div_pow]

theorem toNat_unpackMantissa (b : UInt64) :
    (@UnpackedFloat.unpackMantissa Format.binary64 b.toBitVec).toNat = b.toNat % 2 ^ 52 := by
  simp [UnpackedFloat.unpackMantissa]

/-- The missing numbers are those whose exponent field is full and whose fraction is not zero. -/
theorem isNaN_of_ofFloat {x : Float} (h : ofFloat x = notANumber) : x.isNaN = true := by
  have hfields : x.toBits.toNat / 2 ^ 52 % 2048 = 2047 ∧ x.toBits.toNat % 2 ^ 52 ≠ 0 := by
    rcases ofBits_cases x.toBits.toNat with ⟨-, -, heq⟩ | ⟨hb, hf, -⟩ | ⟨-, heq⟩ | ⟨-, -, heq⟩
    · cases heq.symm.trans h
    · exact ⟨hb, hf⟩
    · cases heq.symm.trans h
    · cases heq.symm.trans h
  have hexponent : @UnpackedFloat.unpackExponent Format.binary64 x.toBits.toBitVec = -1#_ := by
    rw [← BitVec.toNat_inj, toNat_unpackExponent, hfields.1]
    rfl
  have hmantissa : @UnpackedFloat.unpackMantissa Format.binary64 x.toBits.toBitVec ≠ 0#_ := by
    rw [ne_eq, ← BitVec.toNat_inj, toNat_unpackMantissa]
    exact hfields.2
  have hmissing : UnpackedFloat.unpack Format.binary64 x.toBits.toBitVec = .notANumber := by
    simp only [UnpackedFloat.unpack, hexponent, hmantissa, if_true, if_false]
  exact UnpackedFloat.isNaN_iff.mpr hmissing

theorem ofFloat_ne_notANumber {x : Float} (h : x.isNaN = false) : ofFloat x ≠ notANumber :=
  fun heq => Bool.false_ne_true (h.symm.trans (isNaN_of_ofFloat heq))

end Missing

end Binary64

end Clausal.Decimal
