import TableMotion.Proofs.Overwriting
import TableMotion.Proofs.Precedence
import TableMotion.Proofs.Rounding

/-!
# The value of a transition

Between its ends a transition of amounts is eased; any other shows its start or its finish, and
which of the two depends on its times only. So what is folded into both ends is folded into the
value at every time (`valueAt_handDown`).
-/

namespace TableMotion

namespace Binary64

theorem nearestInt_of_isNaN {x : Binary64} (h : x.isNaN = true) : x.nearestInt = 0 := by
  simp [nearestInt, h]

theorem nearestInt_of_isZero {x : Binary64} (h : x.magnitude = 0) : x.nearestInt = 0 := by
  have numerator : 2 * unitsOf 0 + unitsPerOne < 2 * unitsPerOne := by decide +kernel
  simp [nearestInt, h, Nat.div_eq_of_lt numerator]

/-- Zero times anything is zero or not a number. -/
theorem nearestInt_zero_mul (x : Binary64) : (ofInt 0 * x).nearestInt = 0 := by
  have zero : ofInt 0 = ofMagnitude false 0 := by decide +kernel
  have isNumber : (ofMagnitude false 0).isNaN = false := rfl
  have isFinite : (ofMagnitude false 0).isInfinite = false := rfl
  rw [zero]
  show (Binary64.mul (ofMagnitude false 0) x).nearestInt = 0
  simp only [Binary64.mul, isNumber, isFinite, Bool.false_eq_true, if_false]
  split
  · rename_i nan
    exact nearestInt_of_isNaN nan
  · split
    · exact nearestInt_of_isNaN rfl
    · apply nearestInt_of_isZero
      simp [ofMagnitude, unitsOf_zero, roundUnits, halfEven]

end Binary64

/-- Nothing has to be gone between an amount and itself. -/
theorem Amount.lerp_self (a : Amount) (progress : Binary64) : a.lerp a progress = a := by
  obtain ⟨raw, low, high⟩ := a
  unfold lerp
  split
  · rfl
  · split
    · rfl
    · simp only [Int.sub_self, Binary64.nearestInt_zero_mul, saturating, mk.injEq]
      omega

namespace Transition

open TableMotion.Tree

/-- Both ends are amounts, so that the values between them are eased. -/
def IsOfAmounts (r : Transition) : Prop :=
  ∃ a b, r.start = some (.amount a) ∧ r.finish = some (.amount b)

/-- Whether a transition that cannot be eased still shows its start. -/
def showsStartAt (r : Transition) (time : Binary64) : Bool :=
  !(r.duration ≤ 0 && r.startTime ≤ time) &&
    (time ≤ r.startTime ||
      !(r.endTime ≤ time) && progress r.startTime r.endTime time < r.switchPoint)

theorem valueAt_of_not_amounts {r : Transition} (h : ¬ r.IsOfAmounts) (time : Binary64) :
    r.valueAt time = if r.showsStartAt time then r.start else r.finish := by
  unfold valueAt
  by_cases atOnce : r.duration ≤ 0 ∧ r.startTime ≤ time
  · simp [showsStartAt, atOnce]
  · by_cases early : time ≤ r.startTime
    · simp [showsStartAt, atOnce, early]
    · by_cases late : r.endTime ≤ time
      · simp [showsStartAt, atOnce, early, late]
      · simp only [atOnce, early, late, if_false]
        split
        · rename_i a b hs hf
          exact absurd ⟨a, b, hs, hf⟩ h
        · have still : (r.duration ≤ 0 && r.startTime ≤ time : Bool) = false := by
            simpa using atOnce
          simp [showsStartAt, switched, early, late, still]

/-- The value is one of the ends or an amount. -/
theorem valueAt_cases (r : Transition) (time : Binary64) :
    r.valueAt time = r.start ∨ r.valueAt time = r.finish ∨
      ∃ a, r.valueAt time = some (.amount a) := by
  by_cases h : r.IsOfAmounts
  · obtain ⟨a, b, atStart, atFinish⟩ := h
    refine Or.inr (Or.inr ?_)
    simp only [valueAt, switched, atStart, atFinish]
    grind
  · rw [valueAt_of_not_amounts h]
    split
    · exact Or.inl rfl
    · exact Or.inr (Or.inl rfl)

/-- What holds of both ends and of amounts holds of the value at every time. -/
theorem slot_valueAt {P : Tree → Prop} (amount : ∀ a, P (.amount a)) {r : Transition}
    (start : Slot P r.start) (finish : Slot P r.finish) (time : Binary64) :
    Slot P (r.valueAt time) := by
  rcases r.valueAt_cases time with same | same | ⟨a, same⟩
  · rwa [same]
  · rwa [same]
  · rw [same]
    exact slot_some.2 (amount a)

theorem plainSlot_amount (a : Amount) : PlainSlot (some (.amount a)) :=
  slot_some.2 ⟨trivial, rfl⟩

/-- Both ends are plain. -/
structure PlainEnds (r : Transition) : Prop where
  start : PlainSlot r.start
  finish : PlainSlot r.finish

instance (r : Transition) : Decidable r.PlainEnds :=
  decidable_of_iff (PlainSlot r.start ∧ PlainSlot r.finish)
    ⟨fun h => ⟨h.1, h.2⟩, fun h => ⟨h.start, h.finish⟩⟩

theorem PlainEnds.valueAt {r : Transition} (h : r.PlainEnds) (time : Binary64) :
    PlainSlot (r.valueAt time) :=
  slot_valueAt (fun a => slot_some.1 (plainSlot_amount a)) h.start h.finish time

/-- What is over shows its finish. -/
theorem valueAt_of_over {r : Transition} {time : Binary64} (forward : r.startTime ≤ r.endTime)
    (ended : r.endTime < time) : r.valueAt time = r.finish := by
  have started : ¬ time ≤ r.startTime := by
    rintro ⟨_, _, early⟩
    have := forward.2.2
    have := ended.2.2
    omega
  have late := Binary64.le_of_lt ended
  simp only [valueAt, started, late, if_false, if_true, ite_self]

/-- A transition between equal ends shows them all the time. -/
theorem valueAt_of_eq {r : Transition} (h : r.start = r.finish) (time : Binary64) :
    r.valueAt time = r.finish := by
  by_cases amounts : r.IsOfAmounts
  · obtain ⟨a, b, atStart, atFinish⟩ := amounts
    have same : a = b := by simpa [atStart, atFinish] using h
    subst same
    simp only [valueAt, switched, atStart, atFinish, Amount.lerp_self, ite_self]
  · rw [valueAt_of_not_amounts amounts, h, ite_self]

end Transition

/-! ## Folding -/

namespace Schedule

open TableMotion.Tree Transition

/-- A write below a node does not make it an amount and leaves an amount alone. -/
theorem putBelow_eq_amount_iff {s : Option Tree} (hs : PlainSlot s) (key : String) (p : Path)
    (v : Option Tree) (a : Amount) :
    putBelow s (key :: p) v = some (.amount a) ↔ s = some (.amount a) := by
  rw [putBelow_cons hs]
  cases s with
  | none => simp [assignChild]
  | some t => cases t <;> simp [assignChild]

theorem handDown_eq {g h : Transition} (older : h.Older g) {below : Path}
    (covered : g.path = h.path ++ below) :
    handDown g h = { h with
      start := putBelow h.start below g.finish
      finish := putBelow h.finish below g.finish } := by
  have less : h.precedence g = .lt := older
  unfold handDown
  rw [if_pos less, Path.below?_eq_some_iff.2 covered]

theorem handDown_of_not_older {g h : Transition} (notOlder : ¬ h.Older g) :
    handDown g h = h := if_neg notOlder

theorem handDown_of_not_covers {g h : Transition} (apart : h.path.covers g.path = false) :
    handDown g h = h := by
  unfold handDown
  split
  · simp [Path.below?, apart]
  · rfl

/-- Folding changes the two ends of a transition and nothing else. -/
theorem handDown_eq_with (g h : Transition) :
    ∃ start finish, handDown g h = { h with start, finish } := by
  unfold handDown
  split
  · split
    · exact ⟨h.start, h.finish, rfl⟩
    · exact ⟨_, _, rfl⟩
  · exact ⟨h.start, h.finish, rfl⟩

@[simp] theorem handDown_id (g h : Transition) : (handDown g h).id = h.id := by
  obtain ⟨start, finish, same⟩ := handDown_eq_with g h
  rw [same]

@[simp] theorem handDown_path (g h : Transition) : (handDown g h).path = h.path := by
  obtain ⟨start, finish, same⟩ := handDown_eq_with g h
  rw [same]

@[simp] theorem handDown_startTime (g h : Transition) :
    (handDown g h).startTime = h.startTime := by
  obtain ⟨start, finish, same⟩ := handDown_eq_with g h
  rw [same]

@[simp] theorem handDown_endTime (g h : Transition) : (handDown g h).endTime = h.endTime := by
  obtain ⟨start, finish, same⟩ := handDown_eq_with g h
  rw [same]

@[simp] theorem handDown_duration (g h : Transition) : (handDown g h).duration = h.duration := by
  obtain ⟨start, finish, same⟩ := handDown_eq_with g h
  rw [same]

@[simp] theorem older_handDown_iff (g h r : Transition) : (handDown g h).Older r ↔ h.Older r :=
  Older.congr (handDown_startTime g h) (handDown_id g h) rfl rfl

/-- A transition between equal ends stays one. -/
theorem handDown_same (g : Transition) {h : Transition} (same : h.start = h.finish) :
    (handDown g h).start = (handDown g h).finish := by
  unfold handDown
  split
  · split
    · exact same
    · simp only [same]
  · exact same

/-- What writes keep of a tree, folding keeps of both ends. -/
theorem ends_handDown {P : Tree → Prop} (keeps : Hereditary P) {g h : Transition}
    (hg : Slot P g.finish) (hh : Slot P h.start ∧ Slot P h.finish) :
    Slot P (handDown g h).start ∧ Slot P (handDown g h).finish := by
  by_cases older : h.Older g
  · by_cases covered : h.path.covers g.path = true
    · obtain ⟨below, split⟩ := Path.covers_iff.1 covered
      rw [handDown_eq older split]
      exact ⟨hh.1.putBelow keeps hg below, hh.2.putBelow keeps hg below⟩
    · rw [handDown_of_not_covers (by simpa using covered)]
      exact hh
  · rw [handDown_of_not_older older]
    exact hh

theorem plainEnds_handDown {g h : Transition} (hg : PlainSlot g.finish) (hh : h.PlainEnds) :
    (handDown g h).PlainEnds :=
  have ends := ends_handDown plain_hereditary hg ⟨hh.start, hh.finish⟩
  ⟨ends.1, ends.2⟩

/-- What is folded into the ends of a transition is folded into its value at every time. -/
theorem valueAt_handDown {g h : Transition} (plain : h.PlainEnds) (older : h.Older g)
    {below : Path} (covered : g.path = h.path ++ below) (time : Binary64) :
    (handDown g h).valueAt time = putBelow (h.valueAt time) below g.finish := by
  rw [handDown_eq older covered]
  cases below with
  | nil =>
    rw [putBelow_root, putBelow_root, putBelow_root]
    exact valueAt_of_eq rfl time
  | cons key rest =>
    by_cases amounts : h.IsOfAmounts
    · -- amounts hold nothing, so nothing is folded into what lies between them
      obtain ⟨a, b, atStart, atFinish⟩ := amounts
      have start : putBelow h.start (key :: rest) g.finish = h.start := by
        rw [atStart, putBelow_eq_amount_iff (plainSlot_amount a)]
      have finish : putBelow h.finish (key :: rest) g.finish = h.finish := by
        rw [atFinish, putBelow_eq_amount_iff (plainSlot_amount b)]
      rw [start, finish]
      rcases h.valueAt_cases time with same | same | ⟨c, same⟩
      · rw [same, start]
      · rw [same, finish]
      · rw [same, (putBelow_eq_amount_iff (plainSlot_amount c) ..).2 rfl]
    · have still : ¬ IsOfAmounts { h with
          start := putBelow h.start (key :: rest) g.finish
          finish := putBelow h.finish (key :: rest) g.finish } := by
        rintro ⟨a, b, atStart, atFinish⟩
        exact amounts ⟨a, b, (putBelow_eq_amount_iff plain.start ..).1 atStart,
          (putBelow_eq_amount_iff plain.finish ..).1 atFinish⟩
      rw [valueAt_of_not_amounts still, valueAt_of_not_amounts amounts]
      show (if h.showsStartAt time then _ else _) = _
      split <;> rfl

end Schedule

end TableMotion
