import Clausal.Proofs.Decimal.Rounding

/-!
The shortest decimal of a number lies in the interval of the number. What a grid gives does so by
the choice; and the last grid, that of seventeen digits, always gives something, since its step is
narrower than the interval.
-/

namespace Clausal.Decimal

open Binary64

variable {m : Nat} {q p : Int} {x : Numeral}

section Magnitude

/-- The guess of the power of ten is not too large, for the binary exponents that there are. -/
theorem pow_guess_le {e : Int} (hlow : -1074 ≤ e) (hhigh : e ≤ 1023) :
    (10 : ℚ) ^ (e * 30103 / 100000) ≤ 2 ^ e := by
  have hlarge : ∀ n < 1024, 10 ^ (n * 30103 / 100000) ≤ 2 ^ n := by decide +kernel
  have hsmall : ∀ n < 1075, 2 ^ n ≤ 10 ^ ((n * 30103 + 99999) / 100000) := by decide +kernel
  rcases le_or_gt 0 e with hnonneg | hneg
  · obtain ⟨n, rfl⟩ := Int.eq_ofNat_of_zero_le hnonneg
    have hguess : (n : Int) * 30103 / 100000 = (n * 30103 / 100000 : Nat) := by omega
    rw [hguess, zpow_natCast, zpow_natCast]
    exact_mod_cast hlarge n (by omega)
  · obtain ⟨n, rfl⟩ : ∃ n : Nat, e = -(n : Int) := ⟨(-e).toNat, by omega⟩
    have hguess : -(n : Int) * 30103 / 100000 = -(((n * 30103 + 99999) / 100000 : Nat) : Int) := by
      omega
    rw [hguess, zpow_neg, zpow_neg, zpow_natCast, zpow_natCast]
    have hpow := hsmall n (by omega)
    gcongr
    exact_mod_cast hpow

/-- The power of ten by which the grids are chosen is not above the number. -/
theorem pow_decimalExponent_le (h : Canonical m q) :
    (10 : ℚ) ^ decimalExponent m q ≤ m * 2 ^ q := by
  have hlog : 2 ^ m.log2 ≤ m := Nat.log2_self_le (Nat.ne_of_gt h.pos)
  have hbits : m.log2 < 53 := by
    rw [Nat.log2_lt (Nat.ne_of_gt h.pos)]
    exact h.lt
  have hleast := h.least
  have hgreatest := h.greatest
  rw [show leastExponent = -1074 from rfl] at hleast
  have hguess := pow_guess_le (e := m.log2 + q) (by omega) (by omega)
  have hbinade : (2 : ℚ) ^ ((m.log2 : Int) + q) ≤ m * 2 ^ q := by
    rw [zpow_add₀ (by norm_num), zpow_natCast]
    have hcast : ((2 : ℚ) ^ m.log2) ≤ m := by exact_mod_cast hlog
    exact mul_le_mul_of_nonneg_right hcast (by positivity)
  unfold decimalExponent
  dsimp only
  split
  · exact hguess.trans hbinade
  · next hnext =>
      have hspec := (compareScaled_spec 1 (((m.log2 : Int) + q) * 30103 / 100000 + 1) m q).2.2
      have hle := not_lt.mp fun hlt => hnext (beq_iff_eq.mpr (hspec.mpr hlt))
      rwa [Nat.cast_one, one_mul] at hle

end Magnitude

section Grids

/-- The number lies between its two neighbours on a grid. -/
theorem gridFloor_spec (m : Nat) (q p : Int) :
    (gridFloor m q p : ℚ) * 10 ^ p ≤ m * 2 ^ q ∧
      (m : ℚ) * 2 ^ q < ((gridFloor m q p + 1 : Nat) : ℚ) * 10 ^ p := by
  have hpos := scale_pos p q
  have hnum := binary_scale m p q
  have hden : (10 : ℚ) ^ p * scale p q = ((Nat.pow 10 p.toNat <<< (-q).toNat : Nat) : ℚ) := by
    have hone := decimal_scale 1 p q
    rwa [Nat.cast_one, one_mul, one_mul] at hone
  unfold gridFloor
  generalize (m * Nat.pow 10 (-p).toNat) <<< q.toNat = num at hnum
  generalize Nat.pow 10 p.toNat <<< (-q).toNat = den at hden
  have hdenPos : 0 < den := by
    have hten : (0 : ℚ) < 10 ^ p * scale p q := mul_pos (by positivity) hpos
    rw [hden] at hten
    exact Nat.cast_pos.mp hten
  constructor
  · rw [← mul_le_mul_iff_left₀ hpos, mul_assoc, hden, hnum]
    exact_mod_cast Nat.div_mul_le_self num den
  · rw [← mul_lt_mul_iff_left₀ hpos, mul_assoc _ _ (scale p q), mul_assoc _ _ (scale p q), hden,
      ← mul_assoc, hnum]
    rw [mul_comm]
    exact_mod_cast Nat.lt_mul_div_succ num hdenPos

theorem contains_of_gridHit? (h : gridHit? m q p = some x) :
    (Rounding.of m q).contains x = true := by
  simp only [gridHit?] at h
  split at h
  · next hbelow habove =>
      split at h
      · cases h
        exact hbelow
      · cases h
        exact habove
  · next hbelow habove =>
      cases h
      exact hbelow
  · next hbelow habove =>
      cases h
      exact habove
  · contradiction

/-- Ends are in quarters of the unit. -/
theorem quarter_unit (q : Int) : (2 : ℚ) ^ q = 4 * 2 ^ (q - 2) := by
  rw [zpow_sub₀ (by norm_num)]
  norm_num
  ring

/-- The step of a grid of seventeen digits is narrower than the interval. -/
theorem step_lt_width (h : Canonical m q) (hstep : (10 : ℚ) ^ p * 10 ^ 16 ≤ m * 2 ^ q) :
    (10 : ℚ) ^ p < (Rounding.of m q).upper - (Rounding.of m q).lower := by
  have hunit : (0 : ℚ) < 2 ^ (q - 2) := by positivity
  have hpos := h.pos
  have hlt := h.lt
  rw [leastNormal_eq] at hlt
  rw [quarter_unit] at hstep
  have hmantissa : (m : ℚ) * 2 ^ (q - 2) ≤ 2 ^ 53 * 2 ^ (q - 2) :=
    mul_le_mul_of_nonneg_right (by exact_mod_cast (by omega : m ≤ 2 ^ 53)) hunit.le
  have hwidth : (Rounding.of m q).upper - (Rounding.of m q).lower =
      ((4 * m + 2 : ℚ) - (Rounding.of m q).low) * 2 ^ (q - 2) := by
    simp only [Rounding.upper, Rounding.lower, Rounding.of]
    push_cast
    ring
  rw [hwidth]
  by_cases hfoot : m = leastNormal ∧ leastExponent < q
  · -- At the foot of a binade three quarters are left, and the mantissa is the least.
    have hlow : ((Rounding.of m q).low : ℚ) + 1 = 4 * m := by
      have hnat : (Rounding.of m q).low + 1 = 4 * m := by
        simp only [Rounding.of, if_pos hfoot]
        omega
      exact_mod_cast hnat
    have hm : (m : ℚ) = 2 ^ 52 := by
      rw [hfoot.1, leastNormal_eq]
      norm_num
    rw [hm] at hstep hlow ⊢
    nlinarith
  · have hlow : ((Rounding.of m q).low : ℚ) + 2 = 4 * m := by
      have hnat : (Rounding.of m q).low + 2 = 4 * m := by
        simp only [Rounding.of, if_neg hfoot]
        omega
      exact_mod_cast hnat
    nlinarith

/-- So one of the two neighbours on it lies in the interval. -/
theorem gridHit?_isSome (h : Canonical m q) (hstep : (10 : ℚ) ^ p * 10 ^ 16 ≤ m * 2 ^ q) :
    (gridHit? m q p).isSome := by
  obtain ⟨hbelow, habove⟩ := gridFloor_spec m q p
  have hunit : (0 : ℚ) < 2 ^ (q - 2) := by positivity
  have hwidth := step_lt_width h hstep
  have hstepPos : (0 : ℚ) < 10 ^ p := by positivity
  have hlower : (Rounding.of m q).lower < m * 2 ^ q := by
    have hlow : ((Rounding.of m q).low : ℚ) < 4 * m := by exact_mod_cast Rounding.low_lt h
    rw [quarter_unit, ← mul_assoc, mul_comm (m : ℚ)]
    exact mul_lt_mul_of_pos_right hlow hunit
  have hupper : (m : ℚ) * 2 ^ q < (Rounding.of m q).upper := by
    have hhigh : (4 : ℚ) * m < (Rounding.of m q).high := by
      simp only [Rounding.of]
      push_cast
      linarith
    rw [quarter_unit, ← mul_assoc, mul_comm (m : ℚ)]
    exact mul_lt_mul_of_pos_right hhigh hunit
  -- The lower neighbour is inside, or one step from below the interval leads into it.
  have hneighbours : (Rounding.of m q).contains ⟨gridFloor m q p, p⟩ = true ∨
      (Rounding.of m q).contains ⟨gridFloor m q p + 1, p⟩ = true := by
    by_cases hin : (Rounding.of m q).lower < (gridFloor m q p : ℚ) * 10 ^ p
    · exact .inl (Rounding.contains_of_between hin (hbelow.trans_lt hupper))
    · refine .inr (Rounding.contains_of_between (hlower.trans habove) ?_)
      have hnext : ((gridFloor m q p + 1 : Nat) : ℚ) * 10 ^ p =
          (gridFloor m q p : ℚ) * 10 ^ p + 10 ^ p := by
        push_cast
        ring
      calc ((gridFloor m q p + 1 : Nat) : ℚ) * 10 ^ p
          = (gridFloor m q p : ℚ) * 10 ^ p + 10 ^ p := hnext
        _ ≤ (Rounding.of m q).lower + 10 ^ p := add_le_add_left (not_lt.mp hin) _
        _ < (Rounding.of m q).upper := by linarith
  simp only [gridHit?]
  split
  · split <;> rfl
  · rfl
  · rfl
  · next hno hno' =>
      rw [hno, hno'] at hneighbours
      simp at hneighbours

end Grids

/-- The shortest decimal of a number is rounded to the number. -/
theorem holds_shortest (h : Canonical m q) : (Rounding.of m q).Holds (shortest m q).value := by
  have hten := pow_decimalExponent_le h
  have hlast : (gridHit? m q (decimalExponent m q - 16)).isSome := by
    refine gridHit?_isSome h ?_
    rw [zpow_sub₀ (by norm_num)]
    norm_num
    exact hten
  have hsome : (((List.range 17).map fun (k : Nat) =>
      decimalExponent m q - (k : Int)).findSome? (gridHit? m q)).isSome := by
    rw [List.findSome?_isSome_iff]
    exact ⟨_, List.mem_map.mpr ⟨16, by simp, rfl⟩, hlast⟩
  obtain ⟨x, hx⟩ := Option.isSome_iff_exists.mp hsome
  obtain ⟨p, -, hp⟩ := List.exists_of_findSome?_eq_some hx
  have hshortest : shortest m q = x := by
    simp only [shortest, hx, Option.getD_some]
  rw [hshortest]
  exact Rounding.holds_of_contains (contains_of_gridHit? hp)

end Clausal.Decimal
