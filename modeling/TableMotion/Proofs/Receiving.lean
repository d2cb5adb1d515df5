import TableMotion.Proofs.Replaying
import TableMotion.Proofs.Streams

/-!
# What a message leaves of a table

A message is rejected, and only noted (`noting`), or it is an update that the table takes
(`taking`), or a tick that moves its clock (`moving`). Each of the three is one table, the counters
included. `receive_update`, `receive_step` and `receive_other` say which of them a message leaves
and what it reports, `leaves_receive` that there is no fourth.
-/

namespace TableMotion

/-- The update of the state that a message brings. -/
def Message.revision? : Message → Option Revision
  | .gameState u => some ⟨u.version, Table.patchOf u⟩
  | .tournament u => some ⟨u.version, .tournament u.payload⟩
  | .chat _ | .notification _ | .tick _ | .unrecognized _ => none

/-- Whether an outcome is that of a message that is not acted upon. -/
def Outcome.isRejection : Outcome → Bool
  | .stale _ | .clockRejected _ | .ignored => true
  | .applied _ _ | .ticked _ => false

/-! ## Counting a rejection -/

/-- The counters after a rejected message: one more message, and one more for the reason. -/
def Tally.noting (tally : Tally) : Outcome → Tally
  | .stale _ =>
    { tally with messages := tally.messages + 1, staleDropped := tally.staleDropped + 1 }
  | .clockRejected _ =>
    { tally with messages := tally.messages + 1, clockRejections := tally.clockRejections + 1 }
  | .ignored => { tally with messages := tally.messages + 1, ignored := tally.ignored + 1 }
  | .applied _ _ | .ticked _ => tally

/-- A state after a rejected message: only a stale update is counted. -/
def GameState.noting (s : GameState) : Outcome → GameState
  | .stale _ => { s with dropped := s.dropped + 1 }
  | .clockRejected _ | .ignored | .applied _ _ | .ticked _ => s

/-- A state that takes an update counts it. -/
theorem GameState.revise_of_fresh {s : GameState} {u : Revision}
    (fresh : s.stale? u.version u.patch = none) :
    (s.revise u).loaded = true ∧ (s.revise u).accepted = s.accepted + 1 ∧
      (s.revise u).dropped = s.dropped := by
  unfold revise apply
  rw [fresh]
  cases u.patch.isTournament <;> exact ⟨rfl, rfl, rfl⟩

namespace Table

/-- A table after a rejected message: it has counted it and is otherwise the same. -/
def noting (t : Table) (outcome : Outcome) : Table :=
  { t with
    gameState := t.gameState.noting outcome
    tally := t.tally.noting outcome
    nextMessage := t.nextMessage + 1 }

/-! ## Taking an update -/

/-- The changes that an update makes in a table that takes it. The first one makes none. -/
def changesOf (t : Table) (u : Revision) : List Change :=
  if t.gameState.loaded then Tree.changes t.gameState.tree (u.patch.applyTo t.gameState.tree)
  else []

/-- The schedule of a table that has taken an update. -/
def scheduleWith (t : Table) (u : Revision) : Schedule :=
  if t.gameState.loaded then t.insertAll t.nextMessage (t.changesOf u)
  else t.schedule.startWith (u.patch.applyTo t.gameState.tree) (some t.nextMessage)

/-- The version that the stream of an update has reached once the update is taken. -/
def reached (t : Table) (u : Revision) : Option Int :=
  u.version.or (t.gameState.streamVersion u.patch)

/-- A table that has taken an update. -/
def taking (t : Table) (u : Revision) : Table :=
  countSchedule { t.counted with
    gameState := t.gameState.revise u
    schedule := t.scheduleWith u
    tally := { t.counted.tally with
      accepted := t.tally.accepted + 1
      enqueued := t.tally.enqueued + (t.changesOf u).length } }

/-! ## Moving the clock -/

/-- A table whose clock has moved. -/
def moving (t : Table) (step : Tick) : Table :=
  countSchedule { t.counted with
    clock := { t.clock with
      state := ⟨step.time, step.former, step.speed.getD t.clock.state.speed⟩ }
    schedule := t.schedule.prune (step.time - t.rules.pruneGrace)
    tally := { t.counted.tally with ticks := t.tally.ticks + 1 } }

/-- What a table reports of a pruning. -/
def prunedEvents (t : Table) (time : Binary64) : List Event := (t.prune time).2.1

/-! ## Receiving -/

variable {t : Table} {m : Message} {u : Revision}

theorem receive_of_revision (brings : m.revision? = some u) :
    t.receive m = t.counted.update t.nextMessage u.version u.patch := by
  cases m with
  | gameState | tournament =>
    cases brings
    rfl
  | chat | notification | tick | unrecognized => cases brings

/-- A stale update is rejected, any other is taken. -/
theorem receive_update (brings : m.revision? = some u) :
    t.receive m = match t.gameState.stale? u.version u.patch with
      | some e => (.stale e, [.staleDropped t.nextMessage e], t.noting (.stale e))
      | none => (.applied (t.reached u) (t.changesOf u).length,
        [.stateApplied t.nextMessage (t.reached u) (!t.gameState.loaded) (t.changesOf u).length],
        t.taking u) := by
  rw [receive_of_revision brings]
  unfold update taking scheduleWith changesOf GameState.revise GameState.apply
  have asBefore : t.counted.gameState = t.gameState := rfl
  rw [asBefore]
  cases t.gameState.stale? u.version u.patch with
  | some e => rfl
  | none => cases t.gameState.loaded <;> simp [counted, reached, insertAll, now]

/-- The state of a table sees nothing but the updates. -/
theorem gameState_receive (brings : m.revision? = some u) :
    (t.receive m).2.2.gameState = t.gameState.revise u := by
  rw [receive_update brings]
  cases stale : t.gameState.stale? u.version u.patch with
  | some e =>
    rw [GameState.revise, GameState.apply, stale]
    rfl
  | none => rfl

/-- No update ends the program. -/
theorem deliver_of_revision (brings : m.revision? = some u) : t.deliver m = .ok (t.receive m) := by
  have goesOn : t.abort? (t.receive m).1 = none := by
    rw [receive_update brings]
    cases t.gameState.stale? u.version u.patch <;> rfl
  simp only [deliver, goesOn]

/-- A tick moves the clock, unless the clock refuses it. -/
theorem receive_step (t : Table) (step : Tick) :
    t.receive (.tick step) = match Clock.refusal? step.time step.former with
      | some e => (.clockRejected e, [.clockRejected e], t.noting (.clockRejected e))
      | none => (.ticked ⟨step.time, step.former, step.speed.getD t.clock.state.speed⟩,
        .ticked ⟨step.time, step.former, step.speed.getD t.clock.state.speed⟩ ::
          t.prunedEvents (step.time - t.rules.pruneGrace),
        t.moving step) := by
  unfold receive tick Clock.tick
  cases refused : Clock.refusal? step.time step.former with
  | some e =>
    simp only [refused]
    rfl
  | none =>
    simp only [refused]
    rfl

/-- Any other message is ignored. -/
theorem receive_other (noUpdate : m.revision? = none) (noTick : ∀ step, m ≠ .tick step) :
    t.receive m = (.ignored, [], t.noting .ignored) := by
  cases m with
  | gameState | tournament => cases noUpdate
  | tick step => exact absurd rfl (noTick step)
  | chat | notification | unrecognized => rfl

/-- What a message leaves of a table. -/
inductive Leaves (t : Table) : Message → Outcome → Table → Prop
  | noting {m : Message} {outcome : Outcome} (rejects : outcome.isRejection = true) :
    Leaves t m outcome (t.noting outcome)
  | taking {m : Message} {u : Revision} (brings : m.revision? = some u)
    (fresh : t.gameState.stale? u.version u.patch = none) :
    Leaves t m (.applied (t.reached u) (t.changesOf u).length) (t.taking u)
  | moving {step : Tick} (allowed : Clock.refusal? step.time step.former = none) :
    Leaves t (.tick step) (.ticked ⟨step.time, step.former, step.speed.getD t.clock.state.speed⟩)
      (t.moving step)

theorem leaves_receive (t : Table) (m : Message) :
    Leaves t m (t.receive m).1 (t.receive m).2.2 := by
  cases brings : m.revision? with
  | some u =>
    rw [receive_update brings]
    cases stale : t.gameState.stale? u.version u.patch with
    | some e => exact .noting rfl
    | none => exact .taking brings stale
  | none =>
    cases m with
    | gameState | tournament => cases brings
    | tick step =>
      rw [receive_step]
      cases refused : Clock.refusal? step.time step.former with
      | some e => exact .noting rfl
      | none => exact .moving refused
    | chat | notification | unrecognized =>
      rw [receive_other brings (by simp)]
      exact .noting rfl

end Table

end TableMotion
