import TableMotion.Clock
import TableMotion.Message
import TableMotion.Proofs.Rounding

/-!
# Runs of ticks

A clock compares the two times of a tick with each other and not with its own, so it accepts the
same ticks whatever it shows. A tick from before the time of the clock, late or sent twice, can
therefore lead it back: time goes forward through a run exactly if the accepted ticks name their
times in order (`neverGoesBack_iff`).
-/

namespace TableMotion

/-- Why a clock refuses a tick, if it does. -/
def Tick.refusal? (k : Tick) : Option TickError := Clock.refusal? k.time k.former

/-- The times of the ticks that a clock accepts. -/
def acceptedTimes (ks : List Tick) : List Binary64 :=
  (ks.filter fun k => k.refusal?.isNone).map (·.time)

namespace Clock

/-- A clock after a tick. -/
def take (c : Clock) (k : Tick) : Clock := (c.tick k.time k.former k.speed).2

/-- A clock after several ticks. -/
def takeAll (c : Clock) (ks : List Tick) : Clock := ks.foldl take c

/-- No accepted tick of a run takes the clock back. -/
def NeverGoesBack (c : Clock) (ks : List Tick) : Prop :=
  ∀ before k behind, ks = before ++ k :: behind → k.refusal? = none →
    (c.takeAll before).now ≤ (c.takeAll (before ++ [k])).now

variable {c : Clock} {k : Tick} {ks : List Tick}

theorem takeAll_cons (c : Clock) (k : Tick) (ks : List Tick) :
    c.takeAll (k :: ks) = (c.take k).takeAll ks := rfl

theorem takeAll_snoc (c : Clock) (ks : List Tick) (k : Tick) :
    c.takeAll (ks ++ [k]) = (c.takeAll ks).take k := by
  simp [takeAll]

/-! ## One tick -/

/-- A refused tick leaves the clock as it was. -/
theorem tick_of_refused {e : TickError} (refused : k.refusal? = some e) (c : Clock) :
    c.tick k.time k.former k.speed = (.error e, c) := by
  have reason : refusal? k.time k.former = some e := refused
  simp only [tick, reason]

theorem take_of_refused {e : TickError} (refused : k.refusal? = some e) (c : Clock) :
    c.take k = c := by
  rw [take, tick_of_refused refused]

/-- An accepted tick sets the clock to its time. -/
theorem tick_of_accepted (accepted : k.refusal? = none) (c : Clock) :
    c.tick k.time k.former k.speed =
      (.ok ⟨k.time, k.former, k.speed.getD c.state.speed⟩,
        ⟨⟨k.time, k.former, k.speed.getD c.state.speed⟩, c.fatal⟩) := by
  have allowed : refusal? k.time k.former = none := accepted
  simp only [tick, allowed]

theorem now_take_of_accepted (accepted : k.refusal? = none) (c : Clock) :
    (c.take k).now = k.time := by
  rw [take, tick_of_accepted accepted]
  rfl

theorem fatal_take (c : Clock) (k : Tick) : (c.take k).fatal = c.fatal := by
  cases refused : k.refusal? with
  | some e => rw [take_of_refused refused]
  | none => rw [take, tick_of_accepted refused]

theorem fatal_takeAll (c : Clock) (ks : List Tick) : (c.takeAll ks).fatal = c.fatal := by
  induction ks generalizing c with
  | nil => rfl
  | cons k ks ih => rw [takeAll_cons, ih, fatal_take]

/-- An accepted tick does not end before it begins. -/
theorem former_le_time (accepted : k.refusal? = none) : k.former ≤ k.time := by
  have allowed : refusal? k.time k.former = none := accepted
  unfold refusal? at allowed
  split at allowed
  · cases allowed
  · rename_i finite
    split at allowed
    · cases allowed
    · rename_i forward
      simp only [Bool.or_eq_true, Bool.not_eq_true', not_or, Bool.not_eq_false] at finite
      exact (Binary64.not_lt (Binary64.isNaN_eq_false_of_isFinite finite.1)
        (Binary64.isNaN_eq_false_of_isFinite finite.2)).1 forward

/-! ## Runs -/

theorem neverGoesBack_nil (c : Clock) : c.NeverGoesBack [] := by
  intro before k behind split
  simp at split

theorem neverGoesBack_cons :
    c.NeverGoesBack (k :: ks) ↔
      (k.refusal? = none → c.now ≤ (c.take k).now) ∧ (c.take k).NeverGoesBack ks := by
  constructor
  · intro h
    refine ⟨h [] k ks rfl, fun before x behind split => ?_⟩
    exact h (k :: before) x behind (congrArg (k :: ·) split)
  · rintro ⟨first, rest⟩ before x behind split
    cases before with
    | nil =>
      obtain ⟨rfl, rfl⟩ := List.cons.inj split
      exact first
    | cons y before =>
      obtain ⟨rfl, later⟩ := List.cons.inj split
      exact rest before x behind later

theorem acceptedTimes_of_refused {e : TickError} (refused : k.refusal? = some e)
    (ks : List Tick) : acceptedTimes (k :: ks) = acceptedTimes ks := by
  simp [acceptedTimes, refused]

theorem acceptedTimes_of_accepted (accepted : k.refusal? = none) (ks : List Tick) :
    acceptedTimes (k :: ks) = k.time :: acceptedTimes ks := by
  simp [acceptedTimes, accepted]

/-- Along a run time goes forward exactly if the accepted times are in order from that of the
clock. -/
theorem neverGoesBack_iff_inOrder (c : Clock) (ks : List Tick) :
    c.NeverGoesBack ks ↔ (c.now :: acceptedTimes ks).Pairwise (· ≤ ·) := by
  induction ks generalizing c with
  | nil => exact iff_of_true (neverGoesBack_nil c) (List.pairwise_singleton ..)
  | cons k ks ih =>
    rw [neverGoesBack_cons, ih]
    cases refused : k.refusal? with
    | some e => simp [take_of_refused refused, acceptedTimes_of_refused refused]
    | none =>
      rw [now_take_of_accepted refused, acceptedTimes_of_accepted refused]
      constructor
      · rintro ⟨first, rest⟩
        have next := first rfl
        refine List.pairwise_cons.2 ⟨fun x hx => ?_, rest⟩
        rcases List.mem_cons.1 hx with rfl | later
        · exact next
        · exact Binary64.le_trans next (List.rel_of_pairwise_cons rest later)
      · intro inOrder
        obtain ⟨first, rest⟩ := List.pairwise_cons.1 inOrder
        exact ⟨fun _ => first k.time List.mem_cons_self, rest⟩

/-- A tick that goes on from the time of the clock, or from a later one, does not take it back. -/
theorem now_le_take (c : Clock) (goesOn : c.now ≤ k.former) : c.now ≤ (c.take k).now := by
  cases refused : k.refusal? with
  | some e =>
    rw [take_of_refused refused]
    exact ⟨goesOn.1, goesOn.1, Int.le_refl _⟩
  | none =>
    rw [now_take_of_accepted refused]
    exact Binary64.le_trans goesOn (former_le_time refused)

/-- No tick ends the program of a clock that takes nothing for fatal. One that is refused leaves the
clock as it was, one that is accepted sets it to its time, and one that goes on from the time of the
clock or from a later one does not take it back. The others can: along a run time goes forward
exactly if the accepted ticks name their times in order, from that of the clock on. -/
theorem neverGoesBack_iff (tolerant : c.fatal = false) (ks : List Tick) :
    (c.NeverGoesBack ks ↔ (c.now :: acceptedTimes ks).Pairwise (· ≤ ·)) ∧
      ∀ before k behind, ks = before ++ k :: behind →
        let here := c.takeAll before
        let next := c.takeAll (before ++ [k])
        (∀ e, k.refusal? = some e → here.tick k.time k.former k.speed = (.error e, here) ∧
          here.isFatal e = false ∧ next = here) ∧
        (k.refusal? = none → next.now = k.time) ∧
        (here.now ≤ k.former → here.now ≤ next.now) := by
  refine ⟨neverGoesBack_iff_inOrder c ks, fun before k behind _ => ?_⟩
  simp only [takeAll_snoc]
  refine ⟨fun e refused => ⟨tick_of_refused refused _, ?_, take_of_refused refused _⟩,
    fun accepted => now_take_of_accepted accepted _, now_le_take _⟩
  rw [isFatal, fatal_takeAll, tolerant, Bool.false_and]

/-- A tick that goes backward by itself is refused. One that begins early enough is accepted, though
the clock shows a later time. -/
theorem neverGoesBack_iff_late_tick :
    let c := start false
    let paced : List Tick := [⟨50, 0, none⟩, ⟨10, 50, none⟩, ⟨60, 50, none⟩]
    let late : List Tick := [⟨50, 0, none⟩, ⟨10, 0, none⟩]
    c.NeverGoesBack paced ∧ (c.takeAll paced).now = 60 ∧
      ¬ c.NeverGoesBack late ∧ (c.takeAll late).now = 10 := by
  intro c paced late
  have inOrder : (c.now :: acceptedTimes paced).Pairwise (· ≤ ·) := by decide +kernel
  have outOfOrder : ¬ (c.now :: acceptedTimes late).Pairwise (· ≤ ·) := by decide +kernel
  exact ⟨(neverGoesBack_iff rfl paced).1.2 inOrder, by decide +kernel,
    fun forward => outOfOrder ((neverGoesBack_iff rfl late).1.1 forward), by decide +kernel⟩

end Clock

end TableMotion
