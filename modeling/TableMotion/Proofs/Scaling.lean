import TableMotion.Binary64.Scaled
import TableMotion.Proofs.Decimals

/-!
# Where scaling is exact

A decimal of 53 bits is held exactly, and so is a power of ten up to the twenty-second. A product or
quotient of the two is rounded once, so such a decimal is read as the number nearest to it
(`ofScaled_eq_ofDecimal`). Beyond them two roundings can add up.
-/

namespace TableMotion

/-- Rounding a quotient looks at nothing but its value. -/
theorem halfEven_mul_mul {num den c : Nat} (positive : 0 < c) :
    halfEven (num * c) (den * c) = halfEven num den := by
  have rest : 2 * (num * c % (den * c)) = 2 * (num % den) * c := by
    rw [Nat.mul_mod_mul_right, Nat.mul_assoc]
  simp only [halfEven, rest, Nat.mul_div_mul_right num den positive,
    Nat.mul_lt_mul_right positive, Nat.mul_left_inj (Nat.ne_of_gt positive)]

namespace Binary64

theorem roundUnits_mul_mul {num den c : Nat} (positive : 0 < c) :
    roundUnits (num * c) (den * c) = roundUnits num den := by
  rw [roundUnits_eq_shift, roundUnits_eq_shift, Nat.mul_div_mul_right num den positive,
    Nat.mul_right_comm, halfEven_mul_mul positive]

/-! ## Powers of ten -/

theorem isFinite_powerOfTen {k : Nat} (h : k ≤ greatestExponent) :
    (powerOfTen k).isFinite = true := by
  have grows : roundUnits (tenTo k * unitsPerOne) 1 ≤
      roundUnits (tenTo greatestExponent * unitsPerOne) 1 :=
    roundUnits_mono (Nat.mul_le_mul_right _ (tenTo_mono h))
  have greatest : roundUnits (tenTo greatestExponent * unitsPerOne) 1 < infiniteMagnitude := by
    decide +kernel
  exact (ofMagnitude_of_lt (Nat.lt_of_le_of_lt grows greatest) false).2

/-- The powers of ten that are held exactly. -/
theorem unitsOf_powerOfTen {k : Nat} (h : k ≤ 22) :
    unitsOf (powerOfTen k).magnitude = tenTo k * unitsPerOne := by
  have table : ∀ k < 23, unitsOf (powerOfTen k).magnitude = tenTo k * unitsPerOne := by
    decide +kernel
  exact table k (Nat.lt_succ_of_le h)

theorem isZero_powerOfTen {k : Nat} (h : k ≤ 22) : (powerOfTen k).isZero = false := by
  apply decide_eq_false
  intro zero
  have units := unitsOf_powerOfTen h
  rw [zero, unitsOf_zero] at units
  exact absurd units.symm (Nat.ne_of_gt (Nat.mul_pos (tenTo_pos k) unitsPerOne_pos))

theorem scale_natCast {k : Nat} (h : k ≤ greatestExponent) (x : Binary64) :
    scale x k = x * powerOfTen k := by
  rw [scale, if_pos (Int.natCast_nonneg k), if_pos (Int.ofNat_le.2 h), Int.toNat_natCast]

theorem scale_neg {k : Nat} (positive : 0 < k) (h : k ≤ greatestExponent) (x : Binary64) :
    scale x (-k) = x / powerOfTen k := by
  have none : (k - 1) / greatestExponent = 0 := Nat.div_eq_of_lt (by omega)
  rw [scale, if_neg (by omega), Int.neg_neg, Int.toNat_natCast]
  simp only [none, Nat.mul_zero, Nat.sub_zero, divGreatest]

/-! ## Decimals read exactly -/

theorem magnitude_ofScaled (negative : Bool) (d : Decimal) :
    (ofScaled negative d).magnitude = (scale (ofInt d.digits) d.exponent).magnitude := by
  unfold ofScaled
  simp only []
  split <;> rfl

/-- The sign of a number and its magnitude. -/
theorem ofScaled_of_scale {d : Decimal} {m : Nat}
    (h : scale (ofInt d.digits) d.exponent = ofMagnitude false m) (negative : Bool) :
    ofScaled negative d = ofMagnitude negative m := by
  rw [ofScaled, h]
  cases negative <;> rfl

/-- A decimal whose exponent is small is a quotient that is rounded once. -/
theorem ofDecimal_of_near {d : Decimal} (power : d.exponent.natAbs ≤ 22) (negative : Bool) :
    ofDecimal negative d =
      ofRatio negative (d.digits * tenTo d.exponent.toNat) (tenTo (-d.exponent).toNat) := by
  unfold ofDecimal
  split
  · next zero =>
    have nothing (den : Nat) : roundUnits (0 * unitsPerOne) den = 0 := by
      simp [roundUnits_eq_shift, halfEven]
    rw [zero, Nat.zero_mul, ofRatio, nothing]
    rfl
  · rw [if_neg (by omega), if_neg (by omega)]

/-- A decimal of 53 bits is read as the number nearest to it if its power of ten is held exactly. -/
theorem ofScaled_eq_ofDecimal {d : Decimal} (digits : d.digits ≤ 2 * binade)
    (power : d.exponent.natAbs ≤ 22) (negative : Bool) :
    ofScaled negative d = ofDecimal negative d := by
  rw [ofDecimal_of_near power]
  obtain ⟨n, exponent⟩ := d
  have whole : ((n : Int)).natAbs ≤ 2 * binade := digits
  obtain ⟨finite, sign, units⟩ := ofInt_spec whole
  rw [decide_eq_false (by omega)] at sign
  rw [Int.natAbs_natCast] at units
  apply ofScaled_of_scale
  have finitePower {k : Nat} (small : k ≤ 22) : (powerOfTen k).isFinite = true :=
    isFinite_powerOfTen (Nat.le_trans small (by decide))
  have signPower (k : Nat) : (powerOfTen k).negative = false := rfl
  rcases Int.lt_or_le exponent 0 with neg | nonneg
  · obtain ⟨k, rfl⟩ : ∃ k : Nat, exponent = -k := ⟨exponent.natAbs, by omega⟩
    have small : k ≤ 22 := by simpa using power
    have once : roundUnits (n * unitsPerOne * unitsPerOne) (tenTo k * unitsPerOne) =
        roundUnits (n * unitsPerOne) (tenTo k) := roundUnits_mul_mul unitsPerOne_pos
    rw [scale_neg (by omega) (Nat.le_trans small (by decide)),
      div_spec finite (finitePower small) (isZero_powerOfTen small), sign, signPower, units,
      unitsOf_powerOfTen small, once]
    simp [tenTo]
  · obtain ⟨k, rfl⟩ := Int.eq_ofNat_of_zero_le nonneg
    have small : k ≤ 22 := power
    have product : n * unitsPerOne * (tenTo k * unitsPerOne) =
        n * tenTo k * unitsPerOne * unitsPerOne := by ring
    have once : roundUnits (n * tenTo k * unitsPerOne * unitsPerOne) (1 * unitsPerOne) =
        roundUnits (n * tenTo k * unitsPerOne) 1 := roundUnits_mul_mul unitsPerOne_pos
    rw [Nat.one_mul] at once
    rw [scale_natCast (Nat.le_trans small (by decide)), mul_spec finite (finitePower small), sign,
      signPower, units, unitsOf_powerOfTen small, product, once]
    simp [tenTo]

-- `116.66666666666667` has a digit too many and is read as `116.66666666666669`
example : ofScaled false ⟨11666666666666667, -14⟩ = ofDecimal false ⟨11666666666666669, -14⟩ ∧
    ofDecimal false ⟨11666666666666667, -14⟩ ≠ ofDecimal false ⟨11666666666666669, -14⟩ := by
  decide +kernel

end Binary64

end TableMotion
