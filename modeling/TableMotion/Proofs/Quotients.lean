import Mathlib.Tactic.Linarith
import Mathlib.Tactic.Ring
import TableMotion.Proofs.Rounding

/-!
# Rounded quotients

A quotient that lies between the midpoints to the neighbours of a magnitude is rounded to that
magnitude, ends included if it is even (`roundUnits_eq`). Otherwise nothing is known but how far a
rounded quotient is off: by one part in `2 ^ 53` at most (`roundUnits_error`).
-/

namespace TableMotion

/-- What lies no further than a half from an integer is rounded to it, or, at just a half, to an
even one. -/
theorem halfEven_eq {num den c : Nat} (pos : 0 < den) (low : 2 * (c * den) ≤ 2 * num + den)
    (high : 2 * num ≤ 2 * (c * den) + den)
    (odd : c % 2 = 1 → 2 * (c * den) < 2 * num + den ∧ 2 * num < 2 * (c * den) + den) :
    halfEven num den = c := by
  have split := Nat.div_add_mod num den
  have rest := Nat.mod_lt num pos
  simp only [halfEven]
  generalize num / den = q at *
  generalize num % den = r at *
  rcases Nat.lt_trichotomy q c with below | rfl | above
  · have next : c = q + 1 := by
      apply Nat.le_antisymm _ below
      apply Nat.le_of_lt_succ
      apply Nat.lt_of_mul_lt_mul_right (a := den)
      rw [Nat.succ_mul, Nat.succ_mul, Nat.mul_comm q]
      omega
    subst next
    rw [Nat.succ_mul q, Nat.mul_comm q] at low high odd
    split <;> omega
  · rw [Nat.mul_comm q] at low high odd
    split <;> omega
  · have : (c + 1) * den ≤ q * den := Nat.mul_le_mul_right _ above
    rw [Nat.succ_mul, Nat.mul_comm q] at this
    omega

/-- A rounded quotient is off by a half at most. -/
theorem halfEven_error (num : Nat) {den : Nat} (pos : 0 < den) :
    2 * (halfEven num den * den) ≤ 2 * num + den ∧
      2 * num ≤ 2 * (halfEven num den * den) + den := by
  have split := Nat.div_add_mod num den
  have rest := Nat.mod_lt num pos
  simp only [halfEven]
  rw [Nat.mul_comm den] at split
  split
  · rw [Nat.succ_mul (num / den)]
    omega
  · omega

namespace Binary64

/-! ## Significands -/

/-- The units of a significand and an exponent. A significand may be the first one of the next
binade. -/
theorem unitsOf_significand {exponent significand : Nat} (high : significand ≤ 2 * binade)
    (low : exponent = 0 ∨ binade ≤ significand) :
    unitsOf (exponent * binade + significand) = significand * 2 ^ exponent := by
  have positive : 0 < binade := by decide
  rcases Nat.eq_or_lt_of_le high with rfl | below
  · have magnitude : exponent * binade + 2 * binade = (exponent + 2) * binade := by
      rw [← Nat.add_mul]
    rw [magnitude, unitsOf_of_le (Nat.mul_le_mul_right _ (by omega)),
      Nat.mul_mod_left, Nat.mul_div_cancel _ positive]
    rw [show exponent + 2 - 1 = exponent + 1 by omega, Nat.pow_succ]
    ac_rfl
  · rcases Nat.eq_zero_or_pos exponent with rfl | some
    · rw [Nat.zero_mul, Nat.zero_add, unitsOf_of_lt below, Nat.pow_zero, Nat.mul_one]
    · have normal : binade ≤ significand := by omega
      obtain ⟨rest, rfl⟩ := Nat.exists_eq_add_of_le normal
      have small : rest < binade := by omega
      have magnitude : exponent * binade + (binade + rest) = rest + binade * (exponent + 1) := by
        rw [Nat.mul_succ, Nat.mul_comm exponent]
        omega
      have far : 2 * binade ≤ rest + binade * (exponent + 1) := by
        have := Nat.mul_le_mul_left binade (show 2 ≤ exponent + 1 by omega)
        omega
      rw [magnitude, unitsOf_of_le far, Nat.add_mul_mod_self_left, Nat.mod_eq_of_lt small,
        Nat.add_mul_div_left _ _ positive, Nat.div_eq_of_lt small]
      simp

/-- Every magnitude has a significand and an exponent. -/
theorem exists_significand (m : Nat) :
    ∃ exponent significand, m = exponent * binade + significand ∧ significand < 2 * binade ∧
      (exponent = 0 ∨ binade ≤ significand) := by
  have split := Nat.div_add_mod m binade
  have rest : m % binade < binade := Nat.mod_lt _ (by decide)
  by_cases small : m < 2 * binade
  · exact ⟨0, m, by omega, small, .inl rfl⟩
  · have two : 2 ≤ m / binade := (Nat.le_div_iff_mul_le (by decide)).2 (by omega)
    refine ⟨m / binade - 1, binade + m % binade, ?_, by omega, .inr (by omega)⟩
    rw [Nat.sub_mul, Nat.mul_comm, Nat.one_mul]
    have := Nat.mul_le_mul_left binade two
    omega

/-! ## Between midpoints -/

theorem log2_sub_eq {n exponent : Nat} (high : n < 2 * binade * 2 ^ exponent)
    (low : exponent = 0 ∨ binade * 2 ^ exponent ≤ n) : n.log2 - 52 = exponent := by
  have top : n < 2 ^ (52 + exponent + 1) := by
    rw [Nat.pow_succ, ← two_pow_binade]
    linarith
  rcases Nat.eq_zero_or_pos n with rfl | some
  · have : exponent = 0 := by
      have := Nat.two_pow_pos exponent
      simp [binade] at low
      omega
    subst this
    decide
  · have above : n.log2 < 52 + exponent + 1 := (Nat.log2_lt (by omega)).2 top
    rcases low with rfl | low
    · omega
    · rw [two_pow_binade] at low
      have := (Nat.le_log2 (by omega)).2 low
      omega

/-- A quotient in the binade of an exponent is rounded to a significand with that exponent. -/
theorem roundUnits_eq_of_binade {num den exponent significand : Nat} (pos : 0 < den)
    (begun : exponent = 0 ∨ binade * (den * 2 ^ exponent) ≤ num)
    (ended : num < 2 * binade * (den * 2 ^ exponent))
    (low : 2 * (significand * (den * 2 ^ exponent)) ≤ 2 * num + den * 2 ^ exponent)
    (high : 2 * num ≤ 2 * (significand * (den * 2 ^ exponent)) + den * 2 ^ exponent)
    (odd : significand % 2 = 1 →
      2 * (significand * (den * 2 ^ exponent)) < 2 * num + den * 2 ^ exponent ∧
        2 * num < 2 * (significand * (den * 2 ^ exponent)) + den * 2 ^ exponent) :
    roundUnits num den = exponent * binade + significand := by
  have shift : (num / den).log2 - 52 = exponent := by
    apply log2_sub_eq
    · rw [Nat.div_lt_iff_lt_mul pos]
      linarith
    · rw [Nat.le_div_iff_mul_le pos]
      exact begun.imp_right fun reached => by linarith
  have step_pos : 0 < den * 2 ^ exponent := Nat.mul_pos pos (Nat.two_pow_pos exponent)
  rw [roundUnits_eq_shift, shift, halfEven_eq step_pos low high odd]

/-- The magnitude below one is a unit of its binade away, or half a unit from the first of it. -/
theorem unitsOf_pred {exponent significand : Nat} (below : significand < 2 * binade)
    (normal : exponent = 0 ∨ binade ≤ significand) :
    (exponent = 0 ∨ binade < significand →
      significand * 2 ^ exponent ≤
        unitsOf (exponent * binade + significand - 1) + 2 ^ exponent) ∧
    (exponent ≠ 0 ∧ significand = binade →
      2 * unitsOf (exponent * binade + significand - 1) + 2 ^ exponent =
        2 * (binade * 2 ^ exponent)) := by
  constructor
  · intro inner
    rcases Nat.eq_zero_or_pos significand with rfl | some
    · simp
    · obtain ⟨rest, rfl⟩ := Nat.exists_eq_add_of_lt some
      rw [show exponent * binade + (0 + rest + 1) - 1 = exponent * binade + rest by omega,
        unitsOf_significand (by omega) (by omega)]
      linarith
  · rintro ⟨some, rfl⟩
    obtain ⟨e, rfl⟩ := Nat.exists_eq_succ_of_ne_zero some
    obtain ⟨last, hlast⟩ : ∃ last, 2 * binade = last + 1 := ⟨2 * binade - 1, by decide⟩
    have magnitude : e.succ * binade + binade - 1 = e * binade + last := by
      rw [Nat.succ_mul]
      omega
    rw [magnitude, unitsOf_significand (by omega) (.inr (by omega)), Nat.pow_succ]
    have : (last + 1) * 2 ^ e = 2 * binade * 2 ^ e := by rw [hlast]
    linarith

/-- A quotient between the midpoints to the neighbours of a magnitude is rounded to it. -/
theorem roundUnits_eq {num den m : Nat} (pos : 0 < den)
    (low : (unitsOf (m - 1) + unitsOf m) * den ≤ 2 * num)
    (high : 2 * num ≤ (unitsOf m + unitsOf (m + 1)) * den)
    (odd : m % 2 = 1 → (unitsOf (m - 1) + unitsOf m) * den < 2 * num ∧
      2 * num < (unitsOf m + unitsOf (m + 1)) * den) :
    roundUnits num den = m := by
  obtain ⟨exponent, significand, rfl, below, normal⟩ := exists_significand m
  have above : unitsOf (exponent * binade + (significand + 1)) = (significand + 1) * 2 ^ exponent :=
    unitsOf_significand below (normal.imp_right Nat.le_succ_of_le)
  rw [← Nat.add_assoc] at above
  rw [unitsOf_significand (by omega) normal] at low high odd
  rw [above] at high odd
  have even : binade % 2 = 0 := by simp [binade]
  have parity : (exponent * binade + significand) % 2 = significand % 2 := by
    rw [Nat.add_mod, Nat.mul_mod, even, Nat.mul_zero, Nat.zero_mod, Nat.zero_add, Nat.mod_mod]
  rw [parity] at odd
  obtain ⟨inner, first⟩ := unitsOf_pred below normal
  have one_pos := Nat.two_pow_pos exponent
  have step_pos := Nat.mul_pos pos one_pos
  have ended : num < 2 * binade * (den * 2 ^ exponent) := by
    have : (significand + 1) * (den * 2 ^ exponent) ≤ 2 * binade * (den * 2 ^ exponent) :=
      Nat.mul_le_mul_right _ below
    linarith
  by_cases inside : exponent = 0 ∨ binade < significand
  · have scaled := Nat.mul_le_mul_right den (inner inside)
    apply roundUnits_eq_of_binade pos _ ended
    · linarith
    · linarith
    · exact fun isOdd => ⟨by linarith [(odd isOdd).1], by linarith [(odd isOdd).2]⟩
    · refine inside.imp_right fun more => ?_
      have : (binade + 1) * (den * 2 ^ exponent) ≤ significand * (den * 2 ^ exponent) :=
        Nat.mul_le_mul_right _ more
      linarith
  · obtain rfl : significand = binade := by omega
    have some : exponent ≠ 0 := by omega
    have scaled := congrArg (· * den) (first ⟨some, rfl⟩)
    by_cases reached : binade * (den * 2 ^ exponent) ≤ num
    · apply roundUnits_eq_of_binade pos (.inr reached) ended
      · linarith
      · linarith
      · omega
    · -- below its binade a quotient is rounded up to the first magnitude of it
      obtain ⟨e, rfl⟩ := Nat.exists_eq_succ_of_ne_zero some
      have magnitude : e.succ * binade + binade = e * binade + 2 * binade := by
        rw [Nat.succ_mul]
        omega
      rw [magnitude]
      rw [Nat.pow_succ] at *
      apply roundUnits_eq_of_binade pos
      · have : 1 * (den * 2 ^ e) ≤ binade * (den * 2 ^ e) := Nat.mul_le_mul_right _ (by decide)
        exact .inr (by linarith)
      · linarith
      · linarith
      · linarith
      · omega

/-! ## How far a rounded quotient is off -/

/-- A rounded quotient is the nearest multiple of the unit of its binade. -/
theorem unitsOf_roundUnits (num : Nat) {den : Nat} (pos : 0 < den) :
    ∃ exponent, unitsOf (roundUnits num den) =
        halfEven num (den * 2 ^ exponent) * 2 ^ exponent ∧
      (exponent = 0 ∨ binade * (den * 2 ^ exponent) ≤ num) := by
  rw [roundUnits_eq_shift]
  generalize shift : (num / den).log2 - 52 = exponent
  have step_pos : 0 < den * 2 ^ exponent := Nat.mul_pos pos (Nat.two_pow_pos exponent)
  have ended : num ≤ 2 * binade * (den * 2 ^ exponent) := by
    have high : num / den < 2 * binade * 2 ^ exponent := by
      calc num / den < 2 ^ ((num / den).log2 + 1) := Nat.lt_log2_self
        _ ≤ 2 ^ (52 + exponent + 1) := Nat.pow_le_pow_right (by omega) (by omega)
        _ = 2 * binade * 2 ^ exponent := by
          rw [Nat.pow_succ, ← two_pow_binade]
          ring
    rw [Nat.div_lt_iff_lt_mul pos] at high
    linarith
  have begun : exponent = 0 ∨ binade * (den * 2 ^ exponent) ≤ num := by
    refine or_iff_not_imp_left.2 fun some => ?_
    have low : binade * 2 ^ exponent ≤ num / den := by
      rw [two_pow_binade, show 52 + exponent = (num / den).log2 by omega]
      apply Nat.log2_self_le
      intro zero
      rw [zero] at shift
      exact some shift.symm
    rw [Nat.le_div_iff_mul_le pos] at low
    linarith
  refine ⟨exponent, unitsOf_significand ?_ (begun.imp_right fun reached => ?_), begun⟩
  · rw [← halfEven_mul step_pos (2 * binade)]
    exact halfEven_mono _ ended
  · rw [← halfEven_mul step_pos binade]
    exact halfEven_mono _ reached

/-- A rounded quotient is off by one part in `2 ^ 53` at most. -/
theorem roundUnits_error {num den : Nat} (pos : 0 < den) (normal : binade * den ≤ num) :
    2 * binade * (unitsOf (roundUnits num den) * den) ≤ 2 * binade * num + num ∧
      2 * binade * num ≤ 2 * binade * (unitsOf (roundUnits num den) * den) + num := by
  obtain ⟨exponent, units, begun⟩ := unitsOf_roundUnits num pos
  have error := halfEven_error num (Nat.mul_pos pos (Nat.two_pow_pos exponent))
  have step : binade * (den * 2 ^ exponent) ≤ num := by
    rcases begun with rfl | reached
    · simpa using normal
    · exact reached
  have product : unitsOf (roundUnits num den) * den =
      halfEven num (den * 2 ^ exponent) * (den * 2 ^ exponent) := by
    rw [units]
    ring
  rw [product]
  generalize halfEven num (den * 2 ^ exponent) * (den * 2 ^ exponent) = rounded at *
  generalize den * 2 ^ exponent = unit at *
  exact ⟨by nlinarith, by nlinarith⟩

/-- The same for a quotient of products. -/
theorem roundUnits_mul_error {num den unit : Nat} (posDen : 0 < den) (posUnit : 0 < unit)
    (normal : binade * den ≤ num) :
    2 * binade * (unitsOf (roundUnits (num * unit) (den * unit)) * den) ≤
        2 * binade * num + num ∧
      2 * binade * num ≤
        2 * binade * (unitsOf (roundUnits (num * unit) (den * unit)) * den) + num := by
  have scaled : binade * (den * unit) ≤ num * unit := by
    rw [← Nat.mul_assoc]
    exact Nat.mul_le_mul_right unit normal
  obtain ⟨upper, lower⟩ := roundUnits_error (Nat.mul_pos posDen posUnit) scaled
  exact ⟨Nat.le_of_mul_le_mul_right (by linarith) posUnit,
    Nat.le_of_mul_le_mul_right (by linarith) posUnit⟩

/-- An integer of 53 bits is held exactly. -/
theorem unitsOf_ofInt {n : Nat} (small : n ≤ 2 * binade) :
    unitsOf (roundUnits (n * unitsPerOne) 1) = n * unitsPerOne := by
  suffices held : ∃ m, unitsOf m = n * unitsPerOne by
    obtain ⟨m, units⟩ := held
    rw [← units, roundUnits_unitsOf]
  obtain ⟨k, hk⟩ : ∃ k, k = 1074 := ⟨_, rfl⟩
  have unit : unitsPerOne = 2 ^ k := by rw [unitsPerOne, ← hk, Nat.one_shiftLeft]
  rcases Nat.eq_zero_or_pos n with rfl | some
  · exact ⟨0, by simp [unitsOf_zero]⟩
  · -- as a significand the integer is shifted to the front of its 53 bits
    have low : 2 ^ n.log2 ≤ n := Nat.log2_self_le (by omega)
    have high : n < 2 ^ (n.log2 + 1) := Nat.lt_log2_self
    by_cases most : n.log2 ≤ 52
    · have front : 2 ^ n.log2 * 2 ^ (52 - n.log2) = binade := by
        rw [← Nat.pow_add, show n.log2 + (52 - n.log2) = 52 by omega]
        rfl
      refine ⟨(k - (52 - n.log2)) * binade + n * 2 ^ (52 - n.log2), ?_⟩
      rw [unitsOf_significand, unit, Nat.mul_assoc, ← Nat.pow_add,
        show 52 - n.log2 + (k - (52 - n.log2)) = k by omega]
      · have := Nat.mul_le_mul_right (2 ^ (52 - n.log2)) (Nat.le_of_lt high)
        rw [Nat.pow_succ] at this
        linarith
      · have := Nat.mul_le_mul_right (2 ^ (52 - n.log2)) low
        exact .inr (by linarith)
    · have : n = 2 * binade := by
        have : 2 ^ 53 ≤ 2 ^ n.log2 := Nat.pow_le_pow_right (by omega) (by omega)
        simp only [binade] at *
        omega
      refine ⟨k * binade + 2 * binade, ?_⟩
      rw [unitsOf_significand (by omega) (.inr (by omega)), unit, this]

/-! ## Products and quotients -/

theorem isInfinite_eq_false_of_isFinite {x : Binary64} (h : x.isFinite = true) :
    x.isInfinite = false := by
  have : x.magnitude < infiniteMagnitude := of_decide_eq_true h
  exact decide_eq_false (by omega)

/-- A product of finite numbers is the rounded product. -/
theorem mul_spec {x y : Binary64} (hx : x.isFinite = true) (hy : y.isFinite = true) :
    x * y = ofMagnitude (x.negative != y.negative)
      (roundUnits (unitsOf x.magnitude * unitsOf y.magnitude) unitsPerOne) := by
  show x.mul y = _
  unfold Binary64.mul
  simp only [isNaN_eq_false_of_isFinite hx, isNaN_eq_false_of_isFinite hy,
    isInfinite_eq_false_of_isFinite hx, isInfinite_eq_false_of_isFinite hy]
  rfl

/-- A quotient of finite numbers by another than zero is the rounded quotient. -/
theorem div_spec {x y : Binary64} (hx : x.isFinite = true) (hy : y.isFinite = true)
    (nonzero : y.isZero = false) :
    x / y = ofMagnitude (x.negative != y.negative)
      (roundUnits (unitsOf x.magnitude * unitsPerOne) (unitsOf y.magnitude)) := by
  show x.div y = _
  unfold Binary64.div
  simp only [isNaN_eq_false_of_isFinite hx, isNaN_eq_false_of_isFinite hy,
    isInfinite_eq_false_of_isFinite hx, isInfinite_eq_false_of_isFinite hy, nonzero]
  rfl

theorem ofMagnitude_of_lt {m : Nat} (h : m < infiniteMagnitude) (negative : Bool) :
    (ofMagnitude negative m).magnitude = m ∧ (ofMagnitude negative m).isFinite = true := by
  have same : (ofMagnitude negative m).magnitude = m := Nat.min_eq_left (Nat.le_of_lt h)
  exact ⟨same, by simpa [isFinite, same] using h⟩

theorem magnitude_lt_of_unitsOf_lt {a b : Nat} (h : unitsOf a < unitsOf b) : a < b := by
  by_contra above
  have := unitsOf_mono (Nat.le_of_not_lt above)
  omega

theorem unitsOf_infinite : 2 * binade * unitsPerOne < unitsOf infiniteMagnitude := by
  decide +kernel

/-- An integer of 53 bits as a number. -/
theorem ofInt_spec {n : Int} (small : n.natAbs ≤ 2 * binade) :
    (ofInt n).isFinite = true ∧ (ofInt n).negative = decide (n < 0) ∧
      unitsOf (ofInt n).magnitude = n.natAbs * unitsPerOne := by
  have units := unitsOf_ofInt small
  have finite : roundUnits (n.natAbs * unitsPerOne) 1 < infiniteMagnitude := by
    apply magnitude_lt_of_unitsOf_lt
    rw [units]
    have := Nat.mul_le_mul_right unitsPerOne small
    have := unitsOf_infinite
    omega
  obtain ⟨same, isFinite⟩ := ofMagnitude_of_lt finite (n < 0)
  refine ⟨isFinite, rfl, ?_⟩
  show unitsOf (ofMagnitude (n < 0) (roundUnits (n.natAbs * unitsPerOne) 1)).magnitude = _
  rw [same, units]

end Binary64

end TableMotion
