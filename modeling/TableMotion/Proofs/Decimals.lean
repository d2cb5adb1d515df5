import TableMotion.Binary64.Text
import TableMotion.Proofs.Quotients

/-!
# Decimals that read back

The decimal found for a number lies between the midpoints to its neighbours (`readsAs_shortest`).
Whatever such a decimal is written with, zeros at its end or not, it is read as that number
(`ofDecimal_of_readsAs`).
-/

namespace TableMotion

namespace Binary64

/-! ## Between the midpoints -/

theorem unitsOf_lt {a b : Nat} (h : a < b) : unitsOf a < unitsOf b := by
  apply Nat.lt_of_le_of_ne (unitsOf_mono (Nat.le_of_lt h))
  intro same
  have := congrArg (roundUnits · 1) same
  simp only [roundUnits_unitsOf] at this
  omega

theorem unitsPerOne_pos : 0 < unitsPerOne := by decide +kernel

theorem tenTo_pos (n : Nat) : 0 < tenTo n := Nat.pow_pos (by decide)

theorem tenTo_mono {m n : Nat} (h : m ≤ n) : tenTo m ≤ tenTo n :=
  Nat.pow_le_pow_right (by decide) h

theorem tenTo_add (m n : Nat) : tenTo (m + n) = tenTo m * tenTo n := Nat.pow_add ..

theorem tenTo_succ (n : Nat) : tenTo (n + 1) = 10 * tenTo n := by
  show 10 ^ (n + 1) = 10 * 10 ^ n
  rw [Nat.pow_succ, Nat.mul_comm]

/-- What it is to read as the number of a magnitude. -/
theorem readsAs_iff {magnitude c : Nat} {power : Int} :
    readsAs magnitude power c = true ↔
      (unitsOf (magnitude - 1) + unitsOf magnitude) * tenTo (-power).toNat ≤
          2 * (c * tenTo power.toNat * unitsPerOne) ∧
        2 * (c * tenTo power.toNat * unitsPerOne) ≤
          (unitsOf magnitude + unitsOf (magnitude + 1)) * tenTo (-power).toNat ∧
        (magnitude % 2 = 1 →
          (unitsOf (magnitude - 1) + unitsOf magnitude) * tenTo (-power).toNat <
              2 * (c * tenTo power.toNat * unitsPerOne) ∧
            2 * (c * tenTo power.toNat * unitsPerOne) <
              (unitsOf magnitude + unitsOf (magnitude + 1)) * tenTo (-power).toNat) := by
  have point : c * tenTo power.toNat * (2 * unitsPerOne) =
      2 * (c * tenTo power.toNat * unitsPerOne) := by ring
  rw [readsAs, point]
  generalize c * tenTo power.toNat * unitsPerOne = p
  generalize (unitsOf (magnitude - 1) + unitsOf magnitude) * tenTo (-power).toNat = low
  generalize (unitsOf magnitude + unitsOf (magnitude + 1)) * tenTo (-power).toNat = high
  split
  · simp
    omega
  · simp
    omega

/-- A zero at the end of a decimal does not matter. -/
theorem readsAs_shift (magnitude c : Nat) (power : Int) :
    readsAs magnitude (power - 1) (10 * c) = readsAs magnitude power c := by
  rw [Bool.eq_iff_iff, readsAs_iff, readsAs_iff]
  rcases Int.lt_or_le 0 power with above | below
  · obtain ⟨n, rfl⟩ : ∃ n : Nat, power = n + 1 := ⟨(power - 1).toNat, by omega⟩
    rw [show ((n : Int) + 1 - 1).toNat = n by omega, show (-((n : Int) + 1 - 1)).toNat = 0 by omega,
      show ((n : Int) + 1).toNat = n + 1 by omega, show (-((n : Int) + 1)).toNat = 0 by omega,
      tenTo_succ, Nat.mul_left_comm c 10, ← Nat.mul_assoc 10 c]
  · obtain ⟨n, rfl⟩ : ∃ n : Nat, power = -(n : Int) := ⟨(-power).toNat, by omega⟩
    rw [show (-(n : Int) - 1).toNat = 0 by omega, show (-(-(n : Int) - 1)).toNat = n + 1 by omega,
      show (-(n : Int)).toNat = 0 by omega, show (-(-(n : Int))).toNat = n by omega, tenTo_succ]
    have point : 10 * c * tenTo 0 * unitsPerOne = 10 * (c * tenTo 0 * unitsPerOne) := by ring
    rw [point]
    generalize c * tenTo 0 * unitsPerOne = p
    generalize unitsOf (magnitude - 1) + unitsOf magnitude = low
    generalize unitsOf magnitude + unitsOf (magnitude + 1) = high
    generalize tenTo n = ten
    rw [Nat.mul_left_comm low 10 ten, Nat.mul_left_comm high 10 ten]
    generalize low * ten = low
    generalize high * ten = high
    omega

theorem readsAs_shifts (magnitude c : Nat) (power : Int) (k : Nat) :
    readsAs magnitude (power - k) (10 ^ k * c) = readsAs magnitude power c := by
  induction k with
  | zero => simp
  | succ k ih =>
    rw [← ih, ← readsAs_shift magnitude (10 ^ k * c)]
    congr 1
    · omega
    · ring

/-- Zero is zero with every exponent. -/
theorem readsAs_zero (magnitude : Nat) (power other : Int) :
    readsAs magnitude power 0 = readsAs magnitude other 0 := by
  have positive := tenTo_pos (-power).toNat
  have positive' := tenTo_pos (-other).toNat
  rw [Bool.eq_iff_iff, readsAs_iff, readsAs_iff]
  simp [Nat.ne_of_gt positive, Nat.ne_of_gt positive']

theorem readsAs_trimmed (magnitude fuel : Nat) (d : Decimal) :
    readsAs magnitude (trimmed fuel d).exponent (trimmed fuel d).digits =
      readsAs magnitude d.exponent d.digits := by
  induction fuel generalizing d with
  | zero => rfl
  | succ fuel ih =>
    rw [trimmed]
    split
    · next ends =>
      rw [ih, ← readsAs_shift]
      show readsAs magnitude (d.exponent + 1 - 1) (10 * (d.digits / 10)) = _
      rw [Int.add_sub_cancel, Nat.mul_div_cancel' (Nat.dvd_of_mod_eq_zero ends.2)]
    · rfl

/-! ## The decimal that is found -/

/-- One of two neighbours that pass a test, the one a comparison is for if both do. -/
theorem test_of_choice {test : Nat → Bool} {below c : Nat} {order : Ordering} {tie : DecimalTie}
    (h : (match test below, test (below + 1) with
      | false, false => none
      | true, false => some below
      | false, true => some (below + 1)
      | true, true =>
        match order, tie with
        | .lt, _ => some below
        | .gt, _ => some (below + 1)
        | .eq, .up => some (below + 1)
        | .eq, .toEven => some (if below % 2 = 0 then below else below + 1)) = some c) :
    test c = true := by
  cases lower : test below <;> cases upper : test (below + 1) <;> cases order <;> cases tie <;>
    grind

theorem readsAs_nearestOnGrid {tie : DecimalTie} {magnitude c : Nat} {power : Int}
    (h : nearestOnGrid tie magnitude power = some c) : readsAs magnitude power c = true :=
  test_of_choice h

theorem unitsPerOne_eq {k : Nat} (h : k = 1074) : unitsPerOne = 2 ^ k := by
  rw [unitsPerOne, ← h, Nat.one_shiftLeft]

/-- The decimal of all digits is the number itself. -/
theorem readsAs_of_units {k : Nat} (unit : unitsPerOne = 2 ^ k) (magnitude : Nat) :
    readsAs magnitude (-(k : Int)) (unitsOf magnitude * Nat.pow 5 k) = true := by
  have point : unitsOf magnitude * Nat.pow 5 k * tenTo 0 * unitsPerOne =
      unitsOf magnitude * tenTo k := by
    have ten : tenTo k = 5 ^ k * 2 ^ k := by
      rw [← Nat.mul_pow]
      rfl
    rw [unit, ten]
    show unitsOf magnitude * 5 ^ k * 1 * 2 ^ k = _
    ring
  have positive := tenTo_pos k
  have below : unitsOf (magnitude - 1) ≤ unitsOf magnitude := unitsOf_mono (Nat.sub_le ..)
  have above : unitsOf magnitude < unitsOf (magnitude + 1) := unitsOf_lt (Nat.lt_succ_self _)
  rw [readsAs_iff, show (-(-(k : Int))).toNat = k by omega, show (-(k : Int)).toNat = 0 by omega,
    point]
  refine ⟨by nlinarith, by nlinarith, fun odd => ?_⟩
  have strict : unitsOf (magnitude - 1) < unitsOf magnitude := unitsOf_lt (by omega)
  exact ⟨by nlinarith, by nlinarith⟩

theorem exactDecimal_spec (magnitude : Nat) : ∀ k, k = 1074 →
    (exactDecimal magnitude).digits = unitsOf magnitude * Nat.pow 5 k ∧
      (exactDecimal magnitude).exponent = -(k : Int) := by
  rintro _ rfl
  exact ⟨rfl, rfl⟩

theorem readsAs_exactDecimal (magnitude : Nat) :
    readsAs magnitude (exactDecimal magnitude).exponent (exactDecimal magnitude).digits = true := by
  obtain ⟨k, hk⟩ : ∃ k, k = 1074 := ⟨_, rfl⟩
  obtain ⟨digits, exponent⟩ := exactDecimal_spec magnitude k hk
  rw [digits, exponent]
  exact readsAs_of_units (unitsPerOne_eq hk) magnitude

theorem readsAs_shortest (tie : DecimalTie) (magnitude : Nat) :
    readsAs magnitude (shortest tie magnitude).exponent (shortest tie magnitude).digits = true := by
  unfold shortest
  simp only []
  split
  · next d found =>
    obtain ⟨n, -, onGrid⟩ := List.exists_of_findSome?_eq_some found
    obtain ⟨c, nearest, rfl⟩ := Option.map_eq_some_iff.1 onGrid
    rw [readsAs_trimmed]
    exact readsAs_nearestOnGrid nearest
  · exact readsAs_exactDecimal magnitude

/-! ## Reading decimals -/

/-- Only zero has a decimal with the digit zero. -/
theorem magnitude_eq_zero {magnitude : Nat} {power : Int} {c : Nat}
    (h : readsAs magnitude power c = true)
    (small : 2 * (c * tenTo power.toNat * unitsPerOne) < tenTo (-power).toNat) :
    magnitude = 0 := by
  obtain ⟨low, -, -⟩ := readsAs_iff.1 h
  apply Decidable.byContradiction
  intro some
  have : 0 < unitsOf magnitude :=
    Nat.lt_of_le_of_lt (Nat.zero_le _) (unitsOf_lt (Nat.pos_of_ne_zero some))
  nlinarith

/-- A decimal with an exponent this large is beyond all finite numbers. -/
theorem exponent_le {magnitude c : Nat} {power : Int} (finite : magnitude < infiniteMagnitude)
    (h : readsAs magnitude power c = true) (some : c ≠ 0) : power ≤ 400 := by
  obtain ⟨-, high, -⟩ := readsAs_iff.1 h
  apply Decidable.byContradiction
  intro large
  have below : unitsOf magnitude ≤ unitsOf infiniteMagnitude := unitsOf_mono (Nat.le_of_lt finite)
  have above : unitsOf (magnitude + 1) ≤ unitsOf infiniteMagnitude := unitsOf_mono finite
  have far : unitsOf infiniteMagnitude < tenTo 401 * unitsPerOne := by decide +kernel
  have grown : tenTo 401 * unitsPerOne ≤ c * tenTo power.toNat * unitsPerOne := by
    apply Nat.mul_le_mul_right
    calc tenTo 401 ≤ tenTo power.toNat := tenTo_mono (by omega)
      _ ≤ c * tenTo power.toNat := Nat.le_mul_of_pos_left _ (Nat.pos_of_ne_zero some)
  rw [show (-power).toNat = 0 by omega, show tenTo 0 = 1 from rfl, Nat.mul_one] at high
  generalize c * tenTo power.toNat * unitsPerOne = point at *
  generalize tenTo 401 * unitsPerOne = limit at *
  omega

/-- A decimal with an exponent this small is below all midpoints. -/
theorem point_lt_of_log2 {c : Nat} {power : Int} (small : (c.log2 : Int) + power < -400) :
    2 * (c * tenTo power.toNat * unitsPerOne) < tenTo (-power).toNat := by
  have unit : 4 * unitsPerOne ≤ tenTo 401 := by decide +kernel
  have shrunk : tenTo 401 * 2 ^ c.log2 ≤ tenTo (-power).toNat := by
    calc tenTo 401 * 2 ^ c.log2 ≤ tenTo 401 * tenTo c.log2 :=
          Nat.mul_le_mul_left _ (Nat.pow_le_pow_left (by decide) _)
      _ = tenTo (401 + c.log2) := (tenTo_add ..).symm
      _ ≤ tenTo (-power).toNat := tenTo_mono (by omega)
  have digits : c < 2 ^ (c.log2 + 1) := Nat.lt_log2_self
  have positive := unitsPerOne_pos
  rw [show power.toNat = 0 by omega, show tenTo 0 = 1 from rfl, Nat.mul_one]
  rw [Nat.pow_succ] at digits
  generalize tenTo (-power).toNat = limit at *
  generalize tenTo 401 = far at *
  generalize unitsPerOne = one at *
  nlinarith

/-- A decimal between the midpoints to the neighbours of a finite number is read as it. -/
theorem ofDecimal_of_readsAs {magnitude : Nat} {d : Decimal}
    (finite : magnitude < infiniteMagnitude)
    (h : readsAs magnitude d.exponent d.digits = true) (negative : Bool) :
    ofDecimal negative d = ofMagnitude negative magnitude := by
  obtain ⟨low, high, odd⟩ := readsAs_iff.1 h
  unfold ofDecimal
  split
  · next zero =>
    rw [magnitude_eq_zero h (by simp [zero, tenTo_pos])]
    rfl
  · next some =>
    rw [if_neg (Int.not_lt.2 (exponent_le finite h some))]
    split
    · next small =>
      rw [magnitude_eq_zero h (point_lt_of_log2 small)]
      rfl
    · rw [ofRatio, roundUnits_eq (tenTo_pos _) low high odd]

end Binary64

end TableMotion
