import Mathlib.Algebra.Group.Nat.Defs
import TableMotion.Binary64.Arithmetic

/-!
# Rounded sums

Rounding to a magnitude is monotone, and the number of a magnitude rounds to that magnitude. So a
sum is ordered like its terms: adding what is not negative never leads backward, and adding the
same number to two others keeps their order.
-/

namespace TableMotion

/-! ## Rounding a quotient -/

theorem halfEven_mono {a b : Nat} (den : Nat) (h : a ≤ b) :
    halfEven a den ≤ halfEven b den := by
  have quotients : a / den ≤ b / den := Nat.div_le_div_right h
  have splitA := Nat.div_add_mod a den
  have splitB := Nat.div_add_mod b den
  simp only [halfEven]
  rcases Nat.lt_or_eq_of_le quotients with less | same
  · split <;> split <;> omega
  · rw [same] at splitA ⊢
    have rests : a % den ≤ b % den := by omega
    split <;> split <;> omega

theorem halfEven_mul {den : Nat} (pos : 0 < den) (c : Nat) : halfEven (c * den) den = c := by
  simp only [halfEven, Nat.mul_mod_left, Nat.mul_div_cancel _ pos]
  rw [if_neg (by omega)]

namespace Binary64

theorem roundUnits_eq_shift (num den : Nat) :
    roundUnits num den = ((num / den).log2 - 52) * binade +
      halfEven num (den * 2 ^ ((num / den).log2 - 52)) := by
  simp [roundUnits, Nat.shiftLeft_eq]

theorem roundUnits_one (n : Nat) :
    roundUnits n 1 = (n.log2 - 52) * binade + halfEven n (2 ^ (n.log2 - 52)) := by
  rw [roundUnits_eq_shift, Nat.div_one, Nat.one_mul]

theorem two_pow_binade (n : Nat) : binade * 2 ^ n = 2 ^ (52 + n) := by
  rw [Nat.pow_add]
  rfl

theorem log2_mono {a b : Nat} (h : a ≤ b) : a.log2 ≤ b.log2 := by
  by_cases zero : a = 0
  · subst zero
    simp
  · rw [Nat.le_log2 (by omega)]
    exact Nat.le_trans (Nat.log2_self_le zero) h

/-- Of two quotients with the same denominator the greater one is not rounded to less. -/
theorem roundUnits_mono {a b den : Nat} (h : a ≤ b) : roundUnits a den ≤ roundUnits b den := by
  have logs := log2_mono (Nat.div_le_div_right (c := den) h)
  rw [roundUnits_eq_shift, roundUnits_eq_shift]
  by_cases same : (a / den).log2 - 52 = (b / den).log2 - 52
  · rw [same]
    exact Nat.add_le_add_left (halfEven_mono _ h) _
  · -- the powers of two between the quotients keep the two results apart
    have pos : 0 < den := Nat.pos_of_ne_zero fun zero => same (by simp [zero])
    have step_pos (n : Nat) : 0 < den * 2 ^ n := Nat.mul_pos pos (Nat.two_pow_pos n)
    have upper : a ≤ 2 * binade * (den * 2 ^ ((a / den).log2 - 52)) := by
      have high : a / den < 2 * binade * 2 ^ ((a / den).log2 - 52) := by
        rw [Nat.mul_comm 2, Nat.mul_assoc, ← Nat.pow_succ', two_pow_binade]
        exact Nat.lt_of_lt_of_le Nat.lt_log2_self
          (Nat.pow_le_pow_right (by omega) (by omega))
      rw [Nat.div_lt_iff_lt_mul pos, Nat.mul_assoc, Nat.mul_comm _ den] at high
      exact Nat.le_of_lt high
    have lower : binade * (den * 2 ^ ((b / den).log2 - 52)) ≤ b := by
      have low : binade * 2 ^ ((b / den).log2 - 52) ≤ b / den := by
        rw [two_pow_binade, show 52 + ((b / den).log2 - 52) = (b / den).log2 by omega]
        apply Nat.log2_self_le
        intro zero
        rw [zero] at same logs
        simp at same logs
        omega
      rwa [Nat.le_div_iff_mul_le pos, Nat.mul_assoc, Nat.mul_comm _ den] at low
    have roundedA := halfEven_mono (den * 2 ^ ((a / den).log2 - 52)) upper
    have roundedB := halfEven_mono (den * 2 ^ ((b / den).log2 - 52)) lower
    rw [halfEven_mul (step_pos _)] at roundedA roundedB
    have apart : ((a / den).log2 - 52 + 1) * binade ≤ ((b / den).log2 - 52) * binade :=
      Nat.mul_le_mul_right _ (by omega)
    rw [Nat.succ_mul] at apart
    omega

/-! ## Units -/

theorem unitsOf_of_lt {m : Nat} (h : m < 2 * binade) : unitsOf m = m := by
  rw [unitsOf, if_pos h]

theorem unitsOf_of_le {m : Nat} (h : 2 * binade ≤ m) :
    unitsOf m = (binade + m % binade) * 2 ^ (m / binade - 1) := by
  rw [unitsOf, if_neg (by omega), Nat.shiftLeft_eq]

theorem unitsOf_mono {a b : Nat} (h : a ≤ b) : unitsOf a ≤ unitsOf b := by
  have splitA := Nat.div_add_mod a binade
  have splitB := Nat.div_add_mod b binade
  have restA : a % binade < binade := Nat.mod_lt _ (by decide)
  have quotients : a / binade ≤ b / binade := Nat.div_le_div_right h
  -- magnitudes below two binades are their own units; above, each binade doubles the unit
  by_cases smallB : b < 2 * binade
  · rw [unitsOf_of_lt smallB, unitsOf_of_lt (by omega)]
    exact h
  rw [unitsOf_of_le (m := b) (by omega)]
  by_cases smallA : a < 2 * binade
  · rw [unitsOf_of_lt smallA]
    have two : 2 ≤ b / binade := (Nat.le_div_iff_mul_le (by decide)).2 (by omega)
    have : 2 ^ 1 ≤ 2 ^ (b / binade - 1) := Nat.pow_le_pow_right (by omega) (by omega)
    have : binade * 2 ≤ (binade + b % binade) * 2 ^ (b / binade - 1) :=
      Nat.mul_le_mul (by omega) this
    omega
  rw [unitsOf_of_le (by omega)]
  rcases Nat.lt_or_eq_of_le quotients with less | same
  · have two : 2 ≤ a / binade := (Nat.le_div_iff_mul_le (by decide)).2 (by omega)
    calc (binade + a % binade) * 2 ^ (a / binade - 1)
        ≤ (binade * 2) * 2 ^ (a / binade - 1) := Nat.mul_le_mul_right _ (by omega)
      _ = binade * 2 ^ (a / binade - 1 + 1) := by rw [Nat.pow_succ]; ac_rfl
      _ ≤ binade * 2 ^ (b / binade - 1) :=
          Nat.mul_le_mul_left _ (Nat.pow_le_pow_right (by omega) (by omega))
      _ ≤ (binade + b % binade) * 2 ^ (b / binade - 1) := Nat.mul_le_mul_right _ (by omega)
  · rw [same] at splitA ⊢
    exact Nat.mul_le_mul_right _ (by omega)

/-- The number of a magnitude rounds to that magnitude. -/
theorem roundUnits_unitsOf (m : Nat) : roundUnits (unitsOf m) 1 = m := by
  by_cases small : m < 2 * binade
  · rw [unitsOf_of_lt small]
    by_cases zero : m = 0
    · subst zero
      decide
    have : m.log2 < 53 := (Nat.log2_lt zero).2 (by simpa [binade] using small)
    rw [roundUnits_one, show m.log2 - 52 = 0 by omega]
    simpa using halfEven_mul (by decide : 0 < 1) m
  · have split := Nat.div_add_mod m binade
    have rest : m % binade < binade := Nat.mod_lt _ (by decide)
    have two : 2 ≤ m / binade := (Nat.le_div_iff_mul_le (by decide)).2 (by omega)
    rw [unitsOf_of_le (by omega)]
    generalize hs : binade + m % binade = significand at *
    generalize he : m / binade - 1 = exponent at *
    -- the significand has 53 bits, so what is rounded away is zero
    have log : (significand * 2 ^ exponent).log2 = 52 + exponent := by
      rw [Nat.log2_eq_iff (by
        have := Nat.two_pow_pos exponent
        have : 0 < significand := by simp only [binade] at *; omega
        exact Nat.ne_of_gt (Nat.mul_pos this (Nat.two_pow_pos exponent)))]
      constructor
      · rw [Nat.pow_add]
        exact Nat.mul_le_mul_right _ (by simp only [binade] at *; omega)
      · rw [show 52 + exponent + 1 = 53 + exponent by omega, Nat.pow_add]
        exact Nat.mul_lt_mul_of_pos_right (by simp only [binade] at *; omega)
          (Nat.two_pow_pos exponent)
    rw [roundUnits_one, log, show 52 + exponent - 52 = exponent by omega,
      halfEven_mul (Nat.two_pow_pos exponent)]
    simp only [binade] at *
    omega

/-! ## Sums -/

/-- Where the number nearest to so many units stands in the numeric order. -/
def rankOfUnits (n : Int) : Int := (ofMagnitude (n < 0) (roundUnits n.natAbs 1)).rank

theorem rank_ofMagnitude (negative : Bool) (m : Nat) :
    (ofMagnitude negative m).rank =
      if negative then -((min m infiniteMagnitude : Nat) : Int)
      else (min m infiniteMagnitude : Nat) := rfl

theorem isNaN_ofMagnitude (negative : Bool) (m : Nat) : (ofMagnitude negative m).isNaN = false :=
  decide_eq_false (Nat.not_lt.2 (Nat.min_le_right ..))

theorem rankOfUnits_mono {m n : Int} (h : m ≤ n) : rankOfUnits m ≤ rankOfUnits n := by
  simp only [rankOfUnits, rank_ofMagnitude, decide_eq_true_eq]
  split <;> split
  · have : roundUnits n.natAbs 1 ≤ roundUnits m.natAbs 1 := roundUnits_mono (by omega)
    omega
  · omega
  · omega
  · have : roundUnits m.natAbs 1 ≤ roundUnits n.natAbs 1 := roundUnits_mono (by omega)
    omega

theorem unitsOf_zero : unitsOf 0 = 0 := by decide

theorem rankOfUnits_units {x : Binary64} (hx : x.isFinite = true) :
    rankOfUnits x.units = x.rank := by
  have finite : x.magnitude < infiniteMagnitude := of_decide_eq_true hx
  have size : x.units.natAbs = unitsOf x.magnitude := by
    unfold units
    split <;> simp
  have exact := roundUnits_unitsOf x.magnitude
  simp only [rankOfUnits, rank_ofMagnitude, size, exact, decide_eq_true_eq]
  -- the sign is lost at zero only, where it does not count
  have negative : x.units < 0 ↔ x.negative = true ∧ 0 < x.magnitude := by
    have nonzero : 0 < unitsOf x.magnitude ↔ 0 < x.magnitude := by
      constructor
      · intro h
        apply Nat.pos_of_ne_zero
        intro zero
        rw [zero, unitsOf_zero] at h
        exact Nat.lt_irrefl _ h
      · intro h
        apply Nat.pos_of_ne_zero
        intro zero
        rw [zero] at exact
        have : roundUnits 0 1 = 0 := by decide
        omega
    unfold units
    cases x.negative <;> simp [nonzero]
  unfold rank
  cases h : x.negative <;> simp only [h] at negative ⊢ <;> split <;> simp_all <;> omega

theorem units_le_of_rank_le {x y : Binary64} (h : x.rank ≤ y.rank) : x.units ≤ y.units := by
  have zero := unitsOf_zero
  unfold rank at h
  unfold units
  by_cases hx : x.negative = true <;> by_cases hy : y.negative = true <;>
    simp only [hx, hy, if_true] at h ⊢
  · have := unitsOf_mono (a := y.magnitude) (b := x.magnitude) (by omega)
    omega
  · simp
  · have hx0 : x.magnitude = 0 := by simp at h; omega
    have hy0 : y.magnitude = 0 := by simp at h; omega
    simp [hx0, hy0, zero]
  · have := unitsOf_mono (a := x.magnitude) (b := y.magnitude) (by simp at h; omega)
    simp
    omega

/-- A sum of finite numbers is the rounded sum of their units. -/
theorem add_spec {x y : Binary64} (hx : x.isFinite = true) (hy : y.isFinite = true) :
    (x + y).isNaN = false ∧ (x + y).rank = rankOfUnits (x.units + y.units) := by
  have finiteX : x.magnitude < infiniteMagnitude := of_decide_eq_true hx
  have finiteY : y.magnitude < infiniteMagnitude := of_decide_eq_true hy
  show (x.add y).isNaN = false ∧ (x.add y).rank = _
  unfold Binary64.add
  rw [if_neg (by simp [isNaN]; omega), if_neg (by simp [isNaN]; omega),
    if_neg (by simp [isInfinite]; omega), if_neg (by simp [isInfinite]; omega)]
  simp only []
  split
  · rename_i cancelled
    rw [cancelled]
    generalize (x.negative && y.negative) = negative
    constructor
    · rfl
    · cases negative <;> decide
  · exact ⟨isNaN_ofMagnitude .., rfl⟩

theorem isNaN_eq_false_of_isFinite {x : Binary64} (h : x.isFinite = true) : x.isNaN = false := by
  have : x.magnitude < infiniteMagnitude := of_decide_eq_true h
  simp [isNaN]
  omega

/-- Adding a number that is not negative does not lead backward. -/
theorem le_add_of_nonneg {x y : Binary64} (hx : x.isFinite = true) (hy : y.isFinite = true)
    (nonneg : 0 ≤ y) : x ≤ x + y := by
  obtain ⟨number, sum⟩ := add_spec hx hy
  refine ⟨isNaN_eq_false_of_isFinite hx, number, ?_⟩
  rw [sum, ← rankOfUnits_units hx]
  apply rankOfUnits_mono
  have : (0 : Binary64).units ≤ y.units := units_le_of_rank_le nonneg.2.2
  have : (0 : Binary64).units = 0 := by decide +kernel
  omega

/-- Adding the same number keeps the order. -/
theorem add_le_add_right {x y z : Binary64} (hx : x.isFinite = true) (hy : y.isFinite = true)
    (hz : z.isFinite = true) (h : x ≤ y) : x + z ≤ y + z := by
  obtain ⟨numberX, sumX⟩ := add_spec hx hz
  obtain ⟨numberY, sumY⟩ := add_spec hy hz
  refine ⟨numberX, numberY, ?_⟩
  rw [sumX, sumY]
  apply rankOfUnits_mono
  have := units_le_of_rank_le h.2.2
  omega

/-- What is not below a finite number is finite, unless it is infinite. -/
theorem isFinite_of_le {x y : Binary64} (hx : x.isFinite = true) (h : x ≤ y)
    (bounded : y ≠ infinity false) : y.isFinite = true := by
  have finiteX : x.magnitude < infiniteMagnitude := of_decide_eq_true hx
  have notAbove : ¬ infiniteMagnitude < y.magnitude := of_decide_eq_false h.2.1
  have notInfinite : ¬ (y.negative = false ∧ y.magnitude = infiniteMagnitude) := by
    obtain ⟨n, m, valid⟩ := y
    rintro ⟨rfl, rfl⟩
    exact bounded rfl
  have low := h.2.2
  apply decide_eq_true
  cases hx : x.negative <;> cases hy : y.negative <;>
    simp [rank, hx, hy] at low notInfinite <;> omega

theorem zero_isFinite : (0 : Binary64).isFinite = true := by decide +kernel

theorem zero_le_infinity : (0 : Binary64) ≤ infinity false := by decide +kernel

theorem le_of_totalRank_le {x y : Binary64} (hx : x.isNaN = false) (hy : y.isNaN = false)
    (h : x.totalRank ≤ y.totalRank) : x ≤ y := by
  rw [← not_lt hy hx]
  intro less
  have := totalRank_lt_of_lt less
  omega

/-- A sum with zero is finite. -/
theorem isFinite_zero_add {x : Binary64} (h : x.isFinite = true) (nonneg : 0 ≤ x) :
    (0 + x).isFinite = true := by
  have finite : x.magnitude < infiniteMagnitude := of_decide_eq_true h
  have forward : 0 ≤ 0 + x := le_add_of_nonneg zero_isFinite h nonneg
  apply isFinite_of_le zero_isFinite forward
  intro infinite
  have sum := (add_spec zero_isFinite h).2
  have units : (0 : Binary64).units = 0 := by decide +kernel
  rw [units, Int.zero_add, rankOfUnits_units h, infinite] at sum
  have top : (infinity false).rank = infiniteMagnitude := rfl
  rw [top, rank] at sum
  split at sum <;> omega

theorem lt_infinity {x : Binary64} (h : x.isFinite = true) :
    x < infinity false := by
  have finite : x.magnitude < infiniteMagnitude := of_decide_eq_true h
  refine ⟨isNaN_eq_false_of_isFinite h, rfl, ?_⟩
  have top : (infinity false).rank = infiniteMagnitude := rfl
  rw [top, rank]
  split <;> omega

/-- What is not negative and below something is finite. -/
theorem isFinite_of_lt {x y : Binary64} (nonneg : 0 ≤ x) (less : x < y) : x.isFinite = true := by
  apply isFinite_of_le zero_isFinite nonneg
  rintro rfl
  have top : (infinity false).rank = infiniteMagnitude := rfl
  have above := less.2.2
  have notAbove : ¬ infiniteMagnitude < y.magnitude := of_decide_eq_false less.2.1
  rw [top, rank] at above
  split at above <;> omega

/-- Taking away what is not negative does not lead forward, even where it is infinite. -/
theorem sub_le_self {x y : Binary64} (hx : x.isFinite = true) (nonneg : 0 ≤ y) : x - y ≤ x := by
  have numberX := isNaN_eq_false_of_isFinite hx
  have difference : x - y = x + y.neg := by
    show x.sub y = x.add y.neg
    unfold Binary64.sub
    rw [if_neg (by simp [numberX]), if_neg (by simp [nonneg.2.1])]
  rw [difference]
  by_cases hy : y.isFinite = true
  · obtain ⟨number, sum⟩ := add_spec hx (show y.neg.isFinite = true from hy)
    refine ⟨number, numberX, ?_⟩
    rw [sum, ← rankOfUnits_units hx]
    apply rankOfUnits_mono
    have opposite : y.neg.units = -y.units := by
      cases sign : y.negative <;> simp [units, Binary64.neg, sign]
    have : (0 : Binary64).units ≤ y.units := units_le_of_rank_le nonneg.2.2
    have : (0 : Binary64).units = 0 := by decide +kernel
    omega
  · -- the only other one is infinite, and what is left is below everything
    have infinite : y = infinity false := by
      apply Decidable.byContradiction
      intro bounded
      exact hy (isFinite_of_le zero_isFinite nonneg bounded)
    have finite : x.magnitude < infiniteMagnitude := of_decide_eq_true hx
    have bounded : x.isInfinite = false := decide_eq_false (by omega)
    have sum : x + y.neg = infinity true := by
      show x.add y.neg = infinity true
      subst infinite
      unfold Binary64.add
      rw [if_neg (by simp [numberX]), if_neg (by decide), if_neg (by simp [bounded]),
        if_pos (by decide)]
      rfl
    have bottom : (infinity true).rank = -infiniteMagnitude := rfl
    rw [sum]
    refine ⟨rfl, numberX, ?_⟩
    rw [bottom, rank]
    split <;> omega

/-- What is not negative, and with something finite added still below something, is finite. -/
theorem isFinite_of_add_lt {x y z : Binary64} (nonneg : 0 ≤ x) (hy : y.isFinite = true)
    (less : x + y < z) : x.isFinite = true := by
  apply isFinite_of_le zero_isFinite nonneg
  rintro rfl
  have finite : y.magnitude < infiniteMagnitude := of_decide_eq_true hy
  have sum : infinity false + y = infinity false := by
    show (infinity false).add y = infinity false
    unfold Binary64.add
    have bounded : y.isInfinite = false := decide_eq_false (by omega)
    rw [if_neg (by decide), if_neg (by simp [isNaN_eq_false_of_isFinite hy]),
      if_pos (by decide), if_neg (by simp [bounded])]
  rw [sum] at less
  exact absurd (isFinite_of_lt zero_le_infinity less) (by decide)

/-! ## Times that count from zero -/

theorem nonneg_of_totalRank {x : Binary64} (h : (0 : Binary64).totalRank ≤ x.totalRank) :
    x.negative = false := by
  have zero : (0 : Binary64).totalRank = 0 := by decide +kernel
  rw [zero] at h
  cases sign : x.negative with
  | false => rfl
  | true =>
    simp only [totalRank, sign, if_true] at h
    omega

/-- Times that count from zero are ordered alike by both orders. -/
theorem lt_of_totalRank_lt {x y : Binary64} (hx : x.isNaN = false) (hy : y.isNaN = false)
    (begun : (0 : Binary64).totalRank ≤ x.totalRank) (h : x.totalRank < y.totalRank) : x < y := by
  have signX := nonneg_of_totalRank begun
  have signY := nonneg_of_totalRank (Int.le_trans begun (Int.le_of_lt h))
  refine ⟨hx, hy, ?_⟩
  simpa [totalRank, rank, signX, signY] using h

/-- A sum of finite times that count from zero is not the negative zero. -/
theorem negative_add {x y : Binary64} (hx : x.isFinite = true) (hy : y.isFinite = true)
    (sign : x.negative = false) (nonneg : 0 ≤ y) : (x + y).negative = false := by
  have finiteX : x.magnitude < infiniteMagnitude := of_decide_eq_true hx
  have finiteY : y.magnitude < infiniteMagnitude := of_decide_eq_true hy
  have unitsX : 0 ≤ x.units := by simp [units, sign]
  have unitsY : 0 ≤ y.units := by
    have zero : (0 : Binary64).units = 0 := by decide +kernel
    have := units_le_of_rank_le nonneg.2.2
    omega
  show (x.add y).negative = false
  unfold Binary64.add
  rw [if_neg (by simp [isNaN]; omega), if_neg (by simp [isNaN]; omega),
    if_neg (by simp [isInfinite]; omega), if_neg (by simp [isInfinite]; omega)]
  simp only []
  split
  · simp [zero, sign]
  · simp only [ofMagnitude, decide_eq_false_iff_not]
    omega

/-- A span that is not negative does not lead back, even where it is infinite. -/
theorem totalRank_le_add {x y : Binary64} (hx : x.isFinite = true)
    (begun : (0 : Binary64).totalRank ≤ x.totalRank) (nonneg : 0 ≤ y) :
    (x + y).isNaN = false ∧ x.totalRank ≤ (x + y).totalRank := by
  have sign := nonneg_of_totalRank begun
  by_cases hy : y.isFinite = true
  · have forward := le_add_of_nonneg hx hy nonneg
    have positive : x + y ≠ zero true := by
      intro negative
      have := negative_add hx hy sign nonneg
      rw [negative] at this
      cases this
    exact ⟨forward.2.1, totalRank_le_of_le forward positive⟩
  · -- the only other span is the infinite one, which is its own sum
    have infinite : y = infinity false := by
      apply Decidable.byContradiction
      intro bounded
      exact hy (isFinite_of_le zero_isFinite nonneg bounded)
    have sum : x + y = infinity false := by
      have number := isNaN_eq_false_of_isFinite hx
      have notInfinite : x.isInfinite = false := by
        have : x.magnitude < infiniteMagnitude := of_decide_eq_true hx
        exact decide_eq_false (by omega)
      show x.add y = infinity false
      subst infinite
      unfold Binary64.add
      rw [if_neg (by simp [number]), if_neg (by decide), if_neg (by simp [notInfinite]),
        if_pos (by decide)]
    have less := totalRank_lt_of_lt (lt_infinity hx)
    rw [sum]
    exact ⟨by decide, Int.le_of_lt less⟩

end Binary64

end TableMotion
