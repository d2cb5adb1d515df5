import Mathlib.Logic.ExistsUnique
import TableMotion.Proofs.Ticking

/-!
# Thresholds are passed once

An accepted tick that goes on from the time of its clock moves it over a half-open span of time, and
the spans of a run follow one another without a gap. So the run as a whole passes the times after
its first one up to its last one, and each of them with exactly one tick (`passesAt_once`). It does
not matter that ticks are refused in between, or that one takes no time.
-/

namespace TableMotion

namespace Clock

/-- The tick goes on from the time that the clock shows. Both zeros are one time. -/
def GoesOn (c : Clock) (k : Tick) : Prop := k.former ≤ c.now ∧ c.now ≤ k.former

instance (c : Clock) (k : Tick) : Decidable (c.GoesOn k) :=
  inferInstanceAs (Decidable (k.former ≤ c.now ∧ c.now ≤ k.former))

/-- Each tick of a run that is accepted goes on from the time that the clock shows then. -/
def Unbroken (c : Clock) : List Tick → Prop
  | [] => True
  | k :: ks => (k.refusal? = none → c.GoesOn k) ∧ (c.take k).Unbroken ks

instance decidableUnbroken : (c : Clock) → (ks : List Tick) → Decidable (c.Unbroken ks)
  | _, [] => inferInstanceAs (Decidable True)
  | c, k :: ks =>
    have := decidableUnbroken (c.take k) ks
    inferInstanceAs (Decidable ((k.refusal? = none → c.GoesOn k) ∧ (c.take k).Unbroken ks))

/-- The tick at a place of a run is accepted, and right after it the clock has passed a time. -/
def PassesAt (c : Clock) (ks : List Tick) (threshold : Binary64) (i : Nat) : Prop :=
  ∃ k, ks[i]? = some k ∧ k.refusal? = none ∧ (c.takeAll (ks.take (i + 1))).passed threshold = true

variable {c : Clock} {k : Tick} {ks : List Tick} {x : Binary64}

/-! ## One tick -/

theorem passed_iff : c.passed x = true ↔ c.state.former < x ∧ x ≤ c.now := by
  simp [passed, now]

/-- An accepted tick passes what lies after the time of the clock, up to its own time. -/
theorem passed_take_iff (accepted : k.refusal? = none) (goesOn : c.GoesOn k) :
    (c.take k).passed x = true ↔ c.now < x ∧ x ≤ (c.take k).now := by
  have former : (c.take k).state.former = k.former := by rw [take, tick_of_accepted accepted]
  obtain ⟨numberK, numberC, below⟩ := goesOn.1
  have same : k.former.rank = c.now.rank := Int.le_antisymm below goesOn.2.2.2
  rw [passed_iff, former]
  simp only [Binary64.lt_iff, numberK, numberC, same]

/-- A tick that goes on, or is refused, does not lead back. -/
theorem now_le_take_of_goesOn (number : c.now.isNaN = false)
    (goesOn : k.refusal? = none → c.GoesOn k) : c.now ≤ (c.take k).now := by
  cases refused : k.refusal? with
  | some e =>
    rw [take_of_refused refused]
    exact Binary64.le_self number
  | none => exact now_le_take c (goesOn refused).2

/-- No tick of an unbroken run leads back. -/
theorem now_le_takeAll (number : c.now.isNaN = false) (unbroken : c.Unbroken ks) :
    c.now ≤ (c.takeAll ks).now := by
  induction ks generalizing c with
  | nil => exact Binary64.le_self number
  | cons k ks ih =>
    have forward := now_le_take_of_goesOn number unbroken.1
    exact Binary64.le_trans forward (ih forward.2.1 unbroken.2)

/-- What a tick does not pass lies after its time exactly if it lay after that of the clock. -/
theorem after_take_iff (goesOn : k.refusal? = none → c.GoesOn k)
    (notPassed : ¬ (c.now < x ∧ x ≤ (c.take k).now)) : (c.take k).now < x ↔ c.now < x := by
  cases refused : k.refusal? with
  | some e => rw [take_of_refused refused]
  | none =>
    have forward := now_le_take c (goesOn refused).2
    constructor
    · exact Binary64.lt_of_le_of_lt forward
    · intro later
      refine Decidable.byContradiction fun notLater => ?_
      exact notPassed ⟨later, (Binary64.not_lt forward.2.1 later.2.1).1 notLater⟩

/-! ## Runs -/

theorem passesAt_nil (i : Nat) : ¬ c.PassesAt [] x i := by
  rintro ⟨k, found, -⟩
  cases found

theorem passesAt_zero (goesOn : k.refusal? = none → c.GoesOn k) :
    c.PassesAt (k :: ks) x 0 ↔ c.now < x ∧ x ≤ (c.take k).now := by
  have first : c.PassesAt (k :: ks) x 0 ↔
      k.refusal? = none ∧ (c.take k).passed x = true := by
    simp [PassesAt, takeAll]
  rw [first]
  cases refused : k.refusal? with
  | some e =>
    -- the clock stays, and nothing lies between its time and its time
    rw [take_of_refused refused]
    refine iff_of_false (by simp) ?_
    rintro ⟨later, early⟩
    exact Binary64.not_le_of_lt later early
  | none => rw [passed_take_iff refused (goesOn refused), and_iff_right rfl]

theorem passesAt_succ (i : Nat) :
    c.PassesAt (k :: ks) x (i + 1) ↔ (c.take k).PassesAt ks x i := by
  simp [PassesAt, takeAll]

/-- Along an unbroken run each time after that of the clock, up to the one that the run leads to, is
passed by exactly one accepted tick, and every other time by none. -/
theorem passesAt_once (unbroken : c.Unbroken ks) (x : Binary64) :
    (c.now < x ∧ x ≤ (c.takeAll ks).now → ∃! i, c.PassesAt ks x i) ∧
      (¬ (c.now < x ∧ x ≤ (c.takeAll ks).now) → ∀ i, ¬ c.PassesAt ks x i) := by
  induction ks generalizing c with
  | nil =>
    refine ⟨fun inSpan => ?_, fun _ => passesAt_nil⟩
    exact absurd inSpan.2 (Binary64.not_le_of_lt inSpan.1)
  | cons k ks ih =>
    obtain ⟨goesOn, rest⟩ := unbroken
    obtain ⟨once, never⟩ := ih rest
    rw [takeAll_cons]
    by_cases passed : c.now < x ∧ x ≤ (c.take k).now
    · -- the first tick passes it, and the others begin behind it
      have others : ∀ i, ¬ (c.take k).PassesAt ks x i :=
        never fun inRest => Binary64.not_le_of_lt inRest.1 passed.2
      have inSpan : x ≤ ((c.take k).takeAll ks).now :=
        Binary64.le_trans passed.2 (now_le_takeAll passed.2.2.1 rest)
      refine ⟨fun _ => ⟨0, (passesAt_zero goesOn).2 passed, fun i passes => ?_⟩,
        fun outside => absurd ⟨passed.1, inSpan⟩ outside⟩
      cases i with
      | zero => rfl
      | succ i => exact absurd ((passesAt_succ i).1 passes) (others i)
    · -- the first tick does not pass it, so the others decide
      have notFirst : ¬ c.PassesAt (k :: ks) x 0 := mt (passesAt_zero goesOn).1 passed
      rw [← after_take_iff goesOn passed]
      refine ⟨fun inSpan => ?_, fun outside i passes => ?_⟩
      · obtain ⟨i, passes, only⟩ := once inSpan
        refine ⟨i + 1, (passesAt_succ i).2 passes, fun j hj => ?_⟩
        cases j with
        | zero => exact absurd hj notFirst
        | succ j => rw [only j ((passesAt_succ j).1 hj)]
      · cases i with
        | zero => exact notFirst passes
        | succ i => exact never outside i ((passesAt_succ i).1 passes)

/-- Blinds that are due just when a tick ends are passed with it, and not again with one that takes
no time or with those that are refused behind it. -/
theorem passesAt_once_due_blinds :
    let c := start false
    let nan := Binary64.nan false
    let ks : List Tick :=
      [⟨20, 0, none⟩, ⟨20, 20, none⟩, ⟨10, 20, none⟩, ⟨nan, 20, none⟩, ⟨30, 20, none⟩]
    c.Unbroken ks ∧ (∃! i, c.PassesAt ks 20 i) ∧ (∃! i, c.PassesAt ks 30 i) ∧
      ∀ i, ¬ c.PassesAt ks 0 i := by
  intro c nan ks
  have unbroken : c.Unbroken ks := by decide +kernel
  exact ⟨unbroken, (passesAt_once unbroken 20).1 (by decide +kernel),
    (passesAt_once unbroken 30).1 (by decide +kernel),
    (passesAt_once unbroken 0).2 (by decide +kernel)⟩

end Clock

end TableMotion
