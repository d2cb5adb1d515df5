import TableMotion.Proofs.Retiring
import TableMotion.Proofs.States
import TableMotion.Table

/-!
# What a message does to a table

A message leaves the state, the schedule and the clock alone, or it is an update that is accepted,
or a tick that is (`move_receive`). Runs of messages are paced if each tick goes on from the time of
the clock.
-/

namespace TableMotion

/-- The tree that a message brings has a property, if it brings one. -/
def Message.Brings (P : Tree → Prop) : Message → Prop
  | .gameState u | .tournament u => P u.payload
  | .chat _ | .notification _ | .tick _ | .unrecognized _ => True

instance {P : Tree → Prop} [DecidablePred P] : (m : Message) → Decidable (m.Brings P)
  | .gameState u | .tournament u => inferInstanceAs (Decidable (P u.payload))
  | .chat _ | .notification _ | .tick _ | .unrecognized _ => isTrue trivial

namespace Table

/-- What a message does to a table, the counters apart. -/
inductive Move (t : Table) : Message → Table → Prop
  /-- A message that changes nothing: an update that is stale, a tick that is rejected, a message
  of another kind. -/
  | stay {m : Message} {t' : Table} (rules : t'.rules = t.rules) (clock : t'.clock = t.clock)
    (schedule : t'.schedule = t.schedule) (tree : t'.gameState.tree = t.gameState.tree)
    (loaded : t'.gameState.loaded = t.gameState.loaded)
    (accepted : t'.gameState.accepted = t.gameState.accepted) : Move t m t'
  /-- An update that is accepted. -/
  | update {m : Message} {t' : Table} (patch : Patch)
    (brings : ∀ P, m.Brings P → P patch.content) (rules : t'.rules = t.rules)
    (clock : t'.clock = t.clock)
    (tree : t'.gameState.tree = patch.applyTo t.gameState.tree)
    (loaded : t'.gameState.loaded = true)
    (accepted : t'.gameState.accepted = t.gameState.accepted + 1)
    (schedule : t'.schedule = if t.gameState.loaded then
        t.insertAll t.nextMessage (Tree.changes t.gameState.tree t'.gameState.tree)
      else t.schedule.startWith t'.gameState.tree (some t.nextMessage)) : Move t m t'
  /-- A tick that is accepted. -/
  | tick {t' : Table} (step : Tick) (finite : step.time.isFinite = true)
    (forward : ¬ step.time < step.former) (rules : t'.rules = t.rules)
    (now : t'.now = step.time) (gameState : t'.gameState = t.gameState)
    (schedule : t'.schedule = t.schedule.prune (step.time - t.rules.pruneGrace)) :
    Move t (.tick step) t'

theorem move_update (t : Table) (m : Message) (version : Option Int) (patch : Patch)
    (brings : ∀ P, m.Brings P → P patch.content) (tally : Tally) :
    Move t m (({ t with nextMessage := t.nextMessage + 1, tally } : Table).update
      t.nextMessage version patch).2.2 := by
  unfold Table.update GameState.apply
  simp only
  cases stale : t.gameState.stale? version patch with
  | some e => exact .stay rfl rfl rfl rfl rfl rfl
  | none =>
    cases loaded : t.gameState.loaded with
    | true =>
      refine .update patch brings rfl rfl ?_ rfl ?_ ?_
      · simp only [countSchedule]
      · simp only [countSchedule]
      · simp [countSchedule, loaded]
        rfl
    | false =>
      refine .update patch brings rfl rfl ?_ rfl ?_ ?_
      · simp only [countSchedule]
      · simp only [countSchedule]
      · simp [countSchedule, loaded]

theorem move_tick (t : Table) (step : Tick) (tally : Tally) :
    Move t (.tick step)
      (({ t with nextMessage := t.nextMessage + 1, tally } : Table).tick step).2.2 := by
  unfold Table.tick Clock.tick
  simp only
  cases refused : Clock.refusal? step.time step.former with
  | some e => exact .stay rfl rfl rfl rfl rfl rfl
  | none =>
    unfold Clock.refusal? at refused
    split at refused
    · cases refused
    · rename_i finite
      split at refused
      · cases refused
      · rename_i forward
        simp only [Bool.or_eq_true, Bool.not_eq_true', not_or, Bool.not_eq_false] at finite
        exact .tick step finite.1 forward rfl rfl rfl rfl

theorem move_receive (t : Table) (m : Message) : Move t m (t.receive m).2.2 := by
  cases m with
  | gameState u =>
    refine move_update t _ u.version (patchOf u) (fun P brings => ?_) _
    unfold patchOf
    split <;> exact brings
  | tournament u =>
    exact move_update t (.tournament u) u.version (.tournament u.payload) (fun P brings => brings) _
  | tick step =>
    have move := move_tick t step { t.tally with messages := t.tally.messages + 1 }
    unfold receive
    simp only
    split
    · rename_i done
      rwa [done] at move
    · rename_i done
      rwa [done] at move
  | chat | notification | unrecognized => exact .stay rfl rfl rfl rfl rfl rfl

/-! ## Runs -/

/-- Whether a message, if it is a tick, goes on from the time of the clock. The total order tells
the two zeros apart, so time is not to be set to the negative one. -/
def IsPacedBy (t : Table) : Message → Prop
  | .tick step => step.former = t.now ∧ step.time ≠ Binary64.zero true
  | .gameState _ | .tournament _ | .chat _ | .notification _ | .unrecognized _ => True

instance (t : Table) : (m : Message) → Decidable (t.IsPacedBy m)
  | .tick _ => inferInstanceAs (Decidable (_ ∧ _))
  | .gameState _ | .tournament _ | .chat _ | .notification _ | .unrecognized _ => isTrue trivial

/-- Every tick of a run goes on from the time of the clock. -/
def Paced (t : Table) : List Message → Prop
  | [] => True
  | m :: ms => t.IsPacedBy m ∧ Paced (t.receive m).2.2 ms

instance decidablePaced : (t : Table) → (ms : List Message) → Decidable (t.Paced ms)
  | _, [] => isTrue trivial
  | t, m :: ms =>
    have := decidablePaced (t.receive m).2.2 ms
    inferInstanceAs (Decidable (t.IsPacedBy m ∧ Paced (t.receive m).2.2 ms))

theorem foldl_advance_table (ms : List Message) (events : List Event) (t : Table) :
    (ms.foldl advance (events, t)).2 = (t.receiveAll ms).2 := by
  have same : ∀ (events others : List Event) (t : Table),
      (ms.foldl advance (events, t)).2 = (ms.foldl advance (others, t)).2 := by
    induction ms with
    | nil => exact fun _ _ _ => rfl
    | cons m ms ih => exact fun events others t => ih _ _ (t.receive m).2.2
  exact same events [] t

theorem receiveAll_cons (t : Table) (m : Message) (ms : List Message) :
    (t.receiveAll (m :: ms)).2 = ((t.receive m).2.2.receiveAll ms).2 :=
  foldl_advance_table ms _ _

theorem receiveAll_append (t : Table) (ms ns : List Message) :
    (t.receiveAll (ms ++ ns)).2 = ((t.receiveAll ms).2.receiveAll ns).2 := by
  induction ms generalizing t with
  | nil => rfl
  | cons m ms ih => rw [List.cons_append, receiveAll_cons, receiveAll_cons, ih]

/-- What every move keeps holds after a run. -/
theorem holds_receiveAll_of_moves {Q : Table → Prop} {ms : List Message}
    (keeps : ∀ t m t', m ∈ ms → Q t → Move t m t' → Q t') {t : Table} (h : Q t) :
    Q (t.receiveAll ms).2 := by
  induction ms generalizing t with
  | nil => exact h
  | cons m ms ih =>
    rw [receiveAll_cons]
    have moved := keeps t m _ List.mem_cons_self h (move_receive t m)
    exact ih (fun t x t' hx => keeps t x t' (List.mem_cons_of_mem m hx)) moved

/-- What every paced move keeps holds after a paced run. -/
theorem holds_receiveAll {Q : Table → Prop} {ms : List Message}
    (keeps : ∀ t m t', m ∈ ms → Q t → t.IsPacedBy m → Move t m t' → Q t') {t : Table} (h : Q t)
    (paced : t.Paced ms) : Q (t.receiveAll ms).2 := by
  induction ms generalizing t with
  | nil => exact h
  | cons m ms ih =>
    obtain ⟨first, rest⟩ := paced
    rw [receiveAll_cons]
    have moved := keeps t m _ List.mem_cons_self h first (move_receive t m)
    exact ih (fun t x t' hx => keeps t x t' (List.mem_cons_of_mem m hx)) moved rest

/-! ## What every paced run keeps -/

/-- A table whose clock is at a time from zero on, and that has a schedule from its first update
on. -/
structure Ready (t : Table) : Prop where
  finite : t.now.isFinite = true
  begun : (0 : Binary64).totalRank ≤ t.now.totalRank
  loaded : t.gameState.loaded = true ↔ 0 < t.gameState.accepted
  waiting : t.gameState.loaded = false → t.schedule.transitions = []

theorem ready_start (rules : MotionRules) : (start rules).Ready where
  finite := Binary64.zero_isFinite
  begun := Int.le_refl _
  loaded := by simp [start, GameState.empty]
  waiting _ := rfl

/-- The clock does not go back in the total order. -/
theorem now_le_of_tick {t : Table} {step : Tick} (h : t.now.isFinite = true)
    (finite : step.time.isFinite = true) (forward : ¬ step.time < step.former)
    (paced : t.IsPacedBy (.tick step)) : t.now.totalRank ≤ step.time.totalRank := by
  obtain ⟨former, positive⟩ := paced
  rw [former] at forward
  have number := Binary64.isNaN_eq_false_of_isFinite finite
  have le := (Binary64.not_lt number (Binary64.isNaN_eq_false_of_isFinite h)).1 forward
  exact Binary64.totalRank_le_of_le le positive

theorem Ready.move {t t' : Table} (h : t.Ready) {m : Message} (paced : t.IsPacedBy m)
    (move : Move t m t') : t'.Ready := by
  cases move with
  | stay _ clock schedule _ loaded accepted =>
    have now : t'.now = t.now := congrArg Clock.now clock
    constructor
    · rw [now]
      exact h.finite
    · rw [now]
      exact h.begun
    · rw [loaded, accepted]
      exact h.loaded
    · rw [loaded, schedule]
      exact h.waiting
  | update patch _ _ clock _ loaded accepted _ =>
    have now : t'.now = t.now := congrArg Clock.now clock
    constructor
    · rw [now]
      exact h.finite
    · rw [now]
      exact h.begun
    · rw [loaded, accepted]
      exact ⟨fun _ => Nat.succ_pos _, fun _ => rfl⟩
    · rw [loaded]
      intro impossible
      cases impossible
  | tick step finite forward _ now gameState schedule =>
    constructor
    · rw [now]
      exact finite
    · rw [now]
      exact Int.le_trans h.begun (now_le_of_tick h.finite finite forward paced)
    · rw [gameState]
      exact h.loaded
    · rw [gameState, schedule]
      intro notLoaded
      exact Schedule.prune_of_nil (h.waiting notLoaded) _

theorem Move.rules_eq {t t' : Table} {m : Message} (move : Move t m t') : t'.rules = t.rules := by
  cases move <;> assumption

theorem receiveAll_rules (t : Table) (ms : List Message) : (t.receiveAll ms).2.rules = t.rules :=
  holds_receiveAll_of_moves (Q := fun u => u.rules = t.rules)
    (fun _ _ _ _ same move => move.rules_eq.trans same) rfl

/-- What a stable property of states, and a relation of schedules to times and states, need to be
kept by a message: that the schedule of the first update, further changes and prunings keep the
relation. -/
theorem Ready.holds_move {P : Tree → Prop} {Q : Schedule → Binary64 → Tree → Prop}
    {t t' : Table} {m : Message} (h : t.Ready) (stable : Tree.Stable P)
    (tree : P t.gameState.tree) (holds : t.gameState.loaded = true →
      Q t.schedule t.now t.gameState.tree)
    (brings : m.Brings P) (paced : t.IsPacedBy m) (move : Move t m t')
    (starts : ∀ state source, P state → t.schedule.transitions = [] →
      Q (t.schedule.startWith state source) t.now state)
    (inserts : ∀ state number, P state → Q t.schedule t.now t.gameState.tree →
      Q (t.insertAll number (Tree.changes t.gameState.tree state)) t.now state)
    (prunes : ∀ step, m = .tick step → Clock.refusal? step.time step.former = none →
      t.now.totalRank ≤ step.time.totalRank → Q t.schedule t.now t.gameState.tree →
      Q (t.schedule.prune (step.time - t.rules.pruneGrace)) step.time t.gameState.tree) :
    P t'.gameState.tree ∧
      (t'.gameState.loaded = true → Q t'.schedule t'.now t'.gameState.tree) := by
  cases move with
  | stay _ clock schedule same loaded _ =>
    have now : t'.now = t.now := congrArg Clock.now clock
    rw [loaded, schedule, same, now]
    exact ⟨tree, holds⟩
  | update patch brought _ clock next _ _ schedule =>
    have now : t'.now = t.now := congrArg Clock.now clock
    have changed : P t'.gameState.tree := by
      rw [next]
      exact Patch.holds_applyTo stable (brought P brings) tree
    refine ⟨changed, ?_⟩
    intro _
    rw [now, schedule]
    split
    · rename_i before
      exact inserts _ _ changed (holds before)
    · rename_i first
      exact starts _ _ changed (h.waiting (by simpa using first))
  | tick step finite forward _ now gameState schedule =>
    rw [gameState, schedule, now]
    refine ⟨tree, ?_⟩
    intro loaded
    have formerFinite : step.former.isFinite = true := by
      rw [paced.1]
      exact h.finite
    have accepted : Clock.refusal? step.time step.former = none := by
      simp [Clock.refusal?, finite, formerFinite, forward]
    exact prunes step rfl accepted (now_le_of_tick h.finite finite forward paced) (holds loaded)

end Table

end TableMotion
