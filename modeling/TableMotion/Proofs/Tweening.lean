import TableMotion.Proofs.Decimals
import TableMotion.Proofs.Lasting
import TableMotion.Proofs.Values

/-!
# Tweens stay between their ends

The span of two amounts is rounded to a number before it is multiplied, and that may be more than
the span. But times less than one it is rounded to a lower number (`roundUnits_mul_le`), and no
number below the rounded span is more than the span (`unitsOf_pred_le`). So what is added to the
start never leads past the finish, and it grows with the progress (`tween_liesBetween`).
-/

namespace TableMotion

namespace Binary64

/-! ## Rounded products -/

/-- What lies between a magnitude and the midpoint to the next one is rounded to that magnitude. -/
theorem roundUnits_eq_of_le {num den m : Nat} (pos : 0 < den) (reached : unitsOf m * den ≤ num)
    (below : 2 * num < (unitsOf m + unitsOf (m + 1)) * den) : roundUnits num den = m := by
  have before := Nat.mul_le_mul_right den (unitsOf_mono (Nat.sub_le m 1))
  apply roundUnits_eq pos
  · linarith
  · exact Nat.le_of_lt below
  · intro odd
    have strictly : unitsOf (m - 1) < unitsOf m := unitsOf_lt (by omega)
    have := Nat.mul_lt_mul_of_pos_right strictly pos
    exact ⟨by linarith, below⟩

theorem roundUnits_unitsOf_mul (m : Nat) {den : Nat} (pos : 0 < den) :
    roundUnits (unitsOf m * den) den = m := by
  have next := Nat.mul_lt_mul_of_pos_right (unitsOf_lt (Nat.lt_succ_self m)) pos
  exact roundUnits_eq_of_le pos (Nat.le_refl _) (by linarith)

/-- What is nearer to a magnitude than to the next one is not rounded to the next one. -/
theorem roundUnits_le {num den m : Nat} (pos : 0 < den)
    (below : 2 * num < (unitsOf m + unitsOf (m + 1)) * den) : roundUnits num den ≤ m := by
  rcases Nat.le_total num (unitsOf m * den) with low | high
  · rw [← roundUnits_unitsOf_mul m pos]
    exact roundUnits_mono low
  · exact Nat.le_of_eq (roundUnits_eq_of_le pos high below)

/-- From the second binade on, a magnitude and the one below it are less than a part in `2 ^ 52`
apart. -/
theorem unitsOf_succ_lt {m : Nat} (normal : 2 * binade ≤ m + 1) :
    binade * unitsOf (m + 1) < binade * unitsOf m + unitsOf (m + 1) := by
  obtain ⟨exponent, significand, split, high, low⟩ := exists_significand (m + 1)
  have some : exponent ≠ 0 := by
    rintro rfl
    omega
  have reached : binade ≤ significand := low.resolve_left some
  obtain ⟨inner, first⟩ := unitsOf_pred high low
  rw [← split, Nat.add_sub_cancel] at inner first
  have units : unitsOf (m + 1) = significand * 2 ^ exponent := by
    rw [split, unitsOf_significand (Nat.le_of_lt high) low]
  have step_pos := Nat.two_pow_pos exponent
  rw [units]
  rcases Nat.lt_or_eq_of_le reached with inside | rfl
  · have apart := Nat.mul_le_mul_left binade (inner (Or.inr inside))
    have wide := Nat.mul_lt_mul_of_pos_right inside step_pos
    linarith
  · -- below the first magnitude of a binade the distance is half as wide
    have apart := congrArg (binade * ·) (first ⟨some, rfl⟩)
    have wide : 0 < binade * 2 ^ exponent := Nat.mul_pos (by decide) step_pos
    linarith

/-- What is below one is at least a part in `2 ^ 53` below it. -/
theorem unitsOf_below_one {k : Nat} (below : k < (1 : Binary64).magnitude) :
    2 * binade * unitsOf k + unitsPerOne ≤ 2 * binade * unitsPerOne := by
  have last : 2 * binade * unitsOf ((1 : Binary64).magnitude - 1) + unitsPerOne ≤
      2 * binade * unitsPerOne := by decide +kernel
  have most := Nat.mul_le_mul_left (2 * binade) (unitsOf_mono (Nat.le_sub_one_of_lt below))
  omega

/-- A number times one below one is rounded to a number below it. -/
theorem roundUnits_mul_le {m k : Nat} (normal : 2 * binade ≤ m + 1)
    (below : k < (1 : Binary64).magnitude) :
    roundUnits (unitsOf (m + 1) * unitsOf k) unitsPerOne ≤ m := by
  have positive : 0 < binade := by decide
  have part := Nat.mul_le_mul_left (unitsOf (m + 1)) (unitsOf_below_one below)
  have apart := Nat.mul_lt_mul_of_pos_right (unitsOf_succ_lt normal) unitsPerOne_pos
  apply roundUnits_le unitsPerOne_pos
  apply Nat.lt_of_mul_lt_mul_left (a := binade)
  linarith

/-- The magnitude below the one that a quotient is rounded to is not more than the quotient. -/
theorem unitsOf_pred_le {n m : Nat} (rounded : roundUnits n 1 = m + 1) : unitsOf m ≤ n := by
  by_contra less
  have below : roundUnits n 1 ≤ roundUnits (unitsOf m) 1 :=
    roundUnits_mono (Nat.le_of_lt (Nat.lt_of_not_le less))
  rw [rounded, roundUnits_unitsOf] at below
  omega

/-! ## Parts of a span -/

/-- The part of a span, in whole steps: the span is rounded to a number, so is the product with the
magnitude of the part, and that is taken to the nearest integer. -/
def partOf (span magnitude : Nat) : Nat :=
  let whole := unitsOf (roundUnits (span * unitsPerOne) 1)
  (2 * unitsOf (roundUnits (whole * unitsOf magnitude) unitsPerOne) + unitsPerOne) /
    (2 * unitsPerOne)

theorem partOf_mono (span : Nat) {k l : Nat} (h : k ≤ l) : partOf span k ≤ partOf span l := by
  have product (whole : Nat) : roundUnits (whole * unitsOf k) unitsPerOne ≤
      roundUnits (whole * unitsOf l) unitsPerOne :=
    roundUnits_mono (Nat.mul_le_mul_left whole (unitsOf_mono h))
  have units := unitsOf_mono (product (unitsOf (roundUnits (span * unitsPerOne) 1)))
  exact Nat.div_le_div_right (by omega)

/-- What is less than the whole of a span does not lead past its end. -/
theorem partOf_le (span : Nat) {k : Nat} (below : k < (1 : Binary64).magnitude) :
    partOf span k ≤ span := by
  have unit_pos := unitsPerOne_pos
  rcases Nat.eq_zero_or_pos span with rfl | some
  · have nothing : roundUnits 0 unitsPerOne = 0 := by simp [roundUnits, halfEven]
    have zero : roundUnits 0 1 = 0 := by decide
    simp [partOf, zero, unitsOf_zero, nothing, Nat.div_eq_of_lt, unit_pos]
  · have large : (1 : Binary64).magnitude ≤ roundUnits (span * unitsPerOne) 1 := by
      have one : (1 : Binary64).magnitude = roundUnits (1 * unitsPerOne) 1 := by decide +kernel
      rw [one]
      exact roundUnits_mono (Nat.mul_le_mul_right _ some)
    have normal : 2 * binade ≤ (1 : Binary64).magnitude := by decide +kernel
    obtain ⟨m, rounded⟩ : ∃ m, roundUnits (span * unitsPerOne) 1 = m + 1 :=
      Nat.exists_eq_succ_of_ne_zero (by omega)
    have product : unitsOf (roundUnits (unitsOf (m + 1) * unitsOf k) unitsPerOne) ≤
        span * unitsPerOne :=
      Nat.le_trans (unitsOf_mono (roundUnits_mul_le (by omega) below)) (unitsOf_pred_le rounded)
    simp only [partOf, rounded]
    apply Nat.le_of_lt_succ
    rw [Nat.div_lt_iff_lt_mul (by omega)]
    rw [Nat.succ_mul]
    linarith

section Fraction

variable {p q : Binary64}

theorem negative_of_pos (positive : 0 < p) : p.negative = false := by
  have zero : (0 : Binary64).rank = 0 := by decide +kernel
  have above := positive.2.2
  rw [zero] at above
  cases sign : p.negative with
  | false => rfl
  | true =>
    simp only [rank, sign, if_true] at above
    omega

theorem rank_of_pos (positive : 0 < p) : p.rank = p.magnitude := by
  simp [rank, negative_of_pos positive]

theorem magnitude_mono (positive : 0 < p) (h : p ≤ q) : p.magnitude ≤ q.magnitude := by
  have later : 0 < q := lt_of_lt_of_le positive h
  have ranks := h.2.2
  rw [rank_of_pos positive, rank_of_pos later] at ranks
  omega

theorem magnitude_lt_one (positive : 0 < p) (below : p < 1) :
    p.magnitude < (1 : Binary64).magnitude := by
  have one : (0 : Binary64) < 1 := by decide +kernel
  have ranks := below.2.2
  rw [rank_of_pos positive, rank_of_pos one] at ranks
  omega

/-- What a span of 64 bits times a part of one is taken to. -/
theorem nearestInt_mul {span : Int} (bounded : span.natAbs ≤ 0x10000000000000000) (positive : 0 < p)
    (below : p < 1) : (ofInt span * p).nearestInt =
      if span < 0 then -(partOf span.natAbs p.magnitude : Int)
      else partOf span.natAbs p.magnitude := by
  have small := magnitude_lt_one positive below
  have one : (1 : Binary64).magnitude < infiniteMagnitude := by decide +kernel
  have units : unitsOf (1 : Binary64).magnitude = unitsPerOne := by decide +kernel
  have finiteSpan := isFinite_ofInt bounded
  have finitePart : p.isFinite = true := decide_eq_true (Nat.lt_trans small one)
  have whole : (ofInt span).magnitude = roundUnits (span.natAbs * unitsPerOne) 1 := by
    have finite : min (roundUnits (span.natAbs * unitsPerOne) 1) infiniteMagnitude <
      infiniteMagnitude := of_decide_eq_true finiteSpan
    show min (roundUnits (span.natAbs * unitsPerOne) 1) infiniteMagnitude = _
    omega
  -- the product is not above the span, so it is finite too
  have product : roundUnits (unitsOf (ofInt span).magnitude * unitsOf p.magnitude) unitsPerOne <
      infiniteMagnitude := by
    have atMost : unitsOf p.magnitude ≤ unitsPerOne := by
      rw [← units]
      exact unitsOf_mono (Nat.le_of_lt small)
    refine Nat.lt_of_le_of_lt (roundUnits_mono (Nat.mul_le_mul_left _ atMost)) ?_
    rw [roundUnits_unitsOf_mul _ unitsPerOne_pos]
    exact of_decide_eq_true finiteSpan
  obtain ⟨magnitude, finite⟩ := ofMagnitude_of_lt product (decide (span < 0))
  have sign : (ofInt span).negative = decide (span < 0) := rfl
  rw [mul_spec finiteSpan finitePart, sign, negative_of_pos positive, Bool.bne_false, nearestInt,
    if_neg (by simp [isNaN_eq_false_of_isFinite finite]), magnitude, whole]
  simp [partOf, ofMagnitude]

end Fraction

end Binary64

namespace Amount

variable {a b : Amount} {p q : Binary64}

/-- The amount lies between two others, ends included. -/
def LiesBetween (x a b : Amount) : Prop :=
  a.raw ≤ x.raw ∧ x.raw ≤ b.raw ∨ b.raw ≤ x.raw ∧ x.raw ≤ a.raw

instance (x a b : Amount) : Decidable (x.LiesBetween a b) :=
  inferInstanceAs (Decidable (_ ∨ _))

theorem lerp_of_le_zero (a b : Amount) (early : p ≤ 0) : a.lerp b p = a := by
  rw [lerp, if_pos early]

theorem lerp_of_one_le (a b : Amount) (late : 1 ≤ p) : a.lerp b p = b := by
  have started : ¬ p ≤ 0 := by
    intro early
    have one : ¬ (1 : Binary64) ≤ 0 := by decide +kernel
    exact one (Binary64.le_trans late early)
  rw [lerp, if_neg started, if_pos late]

/-- Progress that is not a number leads nowhere. -/
theorem lerp_of_isNaN (a b : Amount) (nan : p.isNaN = true) : a.lerp b p = a := by
  have product (x : Binary64) : (x * p).isNaN = true := by
    show (x.mul p).isNaN = true
    unfold Binary64.mul
    by_cases h : x.isNaN = true <;> simp [h, nan]
  have range := a.inRange
  rw [lerp, if_neg (Binary64.not_le_of_isNaN (Or.inl nan)),
    if_neg (Binary64.not_le_of_isNaN (Or.inr nan))]
  simp only [Binary64.nearestInt_of_isNaN (product _), saturating]
  congr
  omega

/-- Between its ends progress adds a part of the span, which leads no further than the finish. -/
theorem raw_lerp (a b : Amount) (positive : 0 < p) (below : p < 1) :
    let part := Binary64.partOf (b.raw - a.raw).natAbs p.magnitude
    (a.lerp b p).raw = (if b.raw < a.raw then a.raw - part else a.raw + part) ∧
      part ≤ (b.raw - a.raw).natAbs := by
  intro part
  have rangeA := a.inRange
  have rangeB := b.inRange
  have within : part ≤ (b.raw - a.raw).natAbs :=
    Binary64.partOf_le _ (Binary64.magnitude_lt_one positive below)
  have bounded : (b.raw - a.raw).natAbs ≤ 0x10000000000000000 := by omega
  have offset := Binary64.nearestInt_mul bounded positive below
  refine ⟨?_, within⟩
  rw [lerp, if_neg (Binary64.not_le_of_lt positive), if_neg (Binary64.not_le_of_lt below)]
  simp only [saturating, offset]
  split <;> split <;> omega

theorem progress_cases (p : Binary64) : p ≤ 0 ∨ 1 ≤ p ∨ p.isNaN = true ∨ 0 < p ∧ p < 1 := by
  have zero : (0 : Binary64).isNaN = false := by decide +kernel
  have one : (1 : Binary64).isNaN = false := by decide +kernel
  by_cases early : p ≤ 0
  · exact Or.inl early
  by_cases late : 1 ≤ p
  · exact Or.inr (Or.inl late)
  refine Or.inr (Or.inr ?_)
  cases nan : p.isNaN with
  | true => exact Or.inl rfl
  | false =>
    rw [← Binary64.not_lt zero nan, not_not] at early
    rw [← Binary64.not_lt nan one, not_not] at late
    exact Or.inr ⟨early, late⟩

theorem lerp_liesBetween (a b : Amount) (p : Binary64) : (a.lerp b p).LiesBetween a b := by
  unfold LiesBetween
  rcases progress_cases p with early | late | nan | ⟨positive, below⟩
  · rw [lerp_of_le_zero a b early]
    omega
  · rw [lerp_of_one_le a b late]
    omega
  · rw [lerp_of_isNaN a b nan]
    omega
  · obtain ⟨raw, within⟩ := raw_lerp a b positive below
    rw [raw]
    split <;> omega

/-- The further the progress, the further from the start. -/
theorem lerp_liesBetween_of_le (a b : Amount) (h : p ≤ q) :
    (a.lerp b p).LiesBetween a (a.lerp b q) := by
  rcases progress_cases p with early | late | nan | ⟨positive, below⟩
  · rw [lerp_of_le_zero a b early]
    unfold LiesBetween
    omega
  · rw [lerp_of_one_le a b late, lerp_of_one_le a b (Binary64.le_trans late h)]
    unfold LiesBetween
    omega
  · exact absurd h (Binary64.not_le_of_isNaN (Or.inl nan))
  · by_cases whole : 1 ≤ q
    · rw [lerp_of_one_le a b whole]
      exact lerp_liesBetween a b p
    · have positiveQ : 0 < q := Binary64.lt_of_lt_of_le positive h
      have belowQ : q < 1 := by
        rw [← Binary64.not_lt h.2.1 below.2.1] at whole
        exact not_not.1 whole
      have further := Binary64.partOf_mono (b.raw - a.raw).natAbs
        (Binary64.magnitude_mono positive h)
      unfold LiesBetween
      rw [(raw_lerp a b positive below).1, (raw_lerp a b positiveQ belowQ).1]
      split <;> omega

end Amount

namespace Transition

variable {r : Transition} {a b : Amount}

/-- What a transition between amounts shows is some part of the way, its ends included. -/
theorem exists_valueAt_eq_lerp (atStart : r.start = some (.amount a))
    (atFinish : r.finish = some (.amount b)) (time : Binary64) :
    ∃ p, r.valueAt time = some (.amount (a.lerp b p)) := by
  have start : ∃ p, r.start = some (.amount (a.lerp b p)) :=
    ⟨0, by rw [atStart, Amount.lerp_of_le_zero a b (by decide +kernel)]⟩
  have finish : ∃ p, r.finish = some (.amount (a.lerp b p)) :=
    ⟨1, by rw [atFinish, Amount.lerp_of_one_le a b (by decide +kernel)]⟩
  unfold valueAt
  split
  · exact finish
  · split
    · exact start
    · split
      · exact finish
      · simp only [atStart, atFinish, switched] at start finish ⊢
        split
        · split
          · exact start
          · exact finish
        · exact ⟨_, rfl⟩

/-- Between two amounts a transition shows amounts between them, at every time and whatever its span
and easing are. The part of the way that is made grows with the progress, from the start up to `0`
to the finish from `1` on. -/
theorem tween_liesBetween (a b : Amount) :
    (∀ (r : Transition) (time : Binary64), r.start = some (.amount a) →
      r.finish = some (.amount b) →
        ∃ x : Amount, r.valueAt time = some (.amount x) ∧ x.LiesBetween a b) ∧
    (∀ p q : Binary64, p ≤ q → (a.lerp b p).LiesBetween a (a.lerp b q)) ∧
    (∀ p : Binary64, p ≤ 0 → a.lerp b p = a) ∧ ∀ p : Binary64, 1 ≤ p → a.lerp b p = b := by
  refine ⟨fun r time atStart atFinish => ?_, fun p q => Amount.lerp_liesBetween_of_le a b,
    fun p => Amount.lerp_of_le_zero a b, fun p => Amount.lerp_of_one_le a b⟩
  obtain ⟨p, value⟩ := exists_valueAt_eq_lerp atStart atFinish time
  exact ⟨_, value, Amount.lerp_liesBetween a b p⟩

/-- The widest span, of `2 ^ 64 - 1` millionths, is rounded up to `2 ^ 64`. Times the last number
below one it is `2 ^ 64 - 2048`, which leads to an amount short of the finish. -/
theorem tween_liesBetween_widest :
    let least : Amount := ⟨-0x8000000000000000, by decide⟩
    let most : Amount := ⟨0x7FFFFFFFFFFFFFFF, by decide⟩
    let nearlyOne := Binary64.ofMagnitude false 0x3FEFFFFFFFFFFFFF
    let r : Transition := {
      id := 1, path := ["pot"], presentation := .tween, start := some (.amount least)
      finish := some (.amount most), startTime := 0, endTime := 1, duration := 1, easing := .linear
      switchPoint := Binary64.half, source := none, joining := .override }
    (∃ x : Amount, r.valueAt nearlyOne = some (.amount x) ∧ x.LiesBetween least most) ∧
      (least.lerp most nearlyOne).raw = 0x7FFFFFFFFFFFF800 ∧
      (least.lerp most Binary64.half).LiesBetween least (least.lerp most nearlyOne) := by
  intro least most nearlyOne r
  obtain ⟨within, grows, -, -⟩ := tween_liesBetween least most
  exact ⟨within r nearlyOne rfl rfl, by decide +kernel,
    grows Binary64.half nearlyOne (by decide +kernel)⟩

end Transition

end TableMotion
