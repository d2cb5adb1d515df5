import TableMotion.Proofs.Receiving

/-!
# Rejected messages

A rejected message leaves a table as it was, but for the counters. What comes later is what would
have come without it: each transition remembers the number of the message that caused it, and
nothing ever depends on that (`receive_anonymous`), and neither does anything depend on the counters
(`receive_noting`). So the two runs go on in step (`Beside.receive`).
-/

namespace TableMotion

/-! ## Forgetting the causes of transitions -/

/-- A transition without the message that caused it. -/
def Transition.anonymous (r : Transition) : Transition := { r with source := none }

namespace Schedule

open Transition

/-- A schedule without the messages that caused its transitions. -/
def anonymous (s : Schedule) : Schedule :=
  { s with transitions := s.transitions.map Transition.anonymous }

variable {rs : List Transition} {s : Schedule}

theorem filter_anonymous (test : Transition → Bool) (same : ∀ r, test r.anonymous = test r)
    (rs : List Transition) :
    (rs.map Transition.anonymous).filter test = (rs.filter test).map Transition.anonymous := by
  rw [List.filter_map]
  congr 2
  funext r
  exact same r

theorem handDown_anonymous (g r : Transition) :
    handDown g.anonymous r.anonymous = (handDown g r).anonymous := by
  have compared : r.anonymous.precedence g.anonymous = r.precedence g := rfl
  have covered : g.anonymous.path.below? r.anonymous.path = g.path.below? r.path := rfl
  rw [handDown, handDown, compared, covered]
  split
  · cases g.path.below? r.path <;> rfl
  · rfl

theorem byPrecedence_anonymous (rs : List Transition) :
    byPrecedence (rs.map Transition.anonymous) = (byPrecedence rs).map Transition.anonymous := by
  have same : ∀ a ∈ rs, ∀ b ∈ rs,
      (a.precedence b).isLE = (a.anonymous.precedence b.anonymous).isLE := fun _ _ _ _ => rfl
  exact (List.map_mergeSort same).symm

theorem map_handDown_anonymous (gone rs : List Transition) :
    (gone.map Transition.anonymous).foldl (fun rs g => rs.map (handDown g))
        (rs.map Transition.anonymous) =
      (gone.foldl (fun rs g => rs.map (handDown g)) rs).map Transition.anonymous := by
  induction gone generalizing rs with
  | nil => rfl
  | cons g gone ih =>
    have step : (rs.map Transition.anonymous).map (handDown g.anonymous) =
        (rs.map (handDown g)).map Transition.anonymous := by
      simp only [List.map_map, Function.comp_def, handDown_anonymous]
    rw [List.map_cons, List.foldl_cons, List.foldl_cons, step, ih]

theorem interrupt_anonymous (s : Schedule) (p : Path) (time : Binary64) :
    s.anonymous.interrupt p time = (s.interrupt p time).anonymous := by
  have gone := filter_anonymous (isCutAt p time) (fun _ => rfl) s.transitions
  have kept := filter_anonymous (fun r => !isCutAt p time r) (fun _ => rfl) s.transitions
  simp only [interrupt, anonymous, gone, kept, byPrecedence_anonymous, map_handDown_anonymous,
    List.length_map]

theorem greatest?_anonymous {order : Transition → Transition → Ordering}
    (same : ∀ a b, order a.anonymous b.anonymous = order a b) (rs : List Transition) :
    greatest? order (rs.map Transition.anonymous) =
      (greatest? order rs).map Transition.anonymous := by
  cases rs with
  | nil => rfl
  | cons r rest =>
    refine congrArg some ?_
    induction rest generalizing r with
    | nil => rfl
    | cons x rest ih =>
      rw [List.map_cons, List.foldl_cons, List.foldl_cons, same]
      split
      · exact ih r
      · exact ih x

theorem onPath_anonymous (s : Schedule) (p : Path) :
    s.anonymous.onPath p = (s.onPath p).map Transition.anonymous :=
  filter_anonymous _ (fun _ => rfl) s.transitions

theorem underWay?_anonymous (s : Schedule) (p : Path) (time : Binary64) :
    s.anonymous.underWay? p time = (s.underWay? p time).map Transition.anonymous := by
  rw [underWay?, onPath_anonymous, filter_anonymous _ fun _ => rfl]
  exact greatest?_anonymous (fun _ _ => rfl) _

theorem lastToEnd?_anonymous (s : Schedule) (p : Path) :
    s.anonymous.lastToEnd? p = (s.lastToEnd? p).map Transition.anonymous := by
  rw [lastToEnd?, onPath_anonymous, filter_anonymous _ fun _ => rfl]
  exact greatest?_anonymous (fun _ _ => rfl) _

theorem opening_anonymous (s : Schedule) (c : Change) (time : Binary64) (joining : Joining) :
    s.anonymous.opening c time joining = s.opening c time joining := by
  cases joining with
  | override =>
    rw [opening, opening, underWay?_anonymous]
    cases s.underWay? c.path time <;> rfl
  | chain =>
    rw [opening, opening, lastToEnd?_anonymous]
    cases s.lastToEnd? c.path <;> rfl

theorem push_anonymous (s : Schedule) (r : Transition) :
    (s.push r).anonymous = s.anonymous.push r.anonymous := by
  simp [push, anonymous]

theorem startWith_anonymous (s : Schedule) (state : Tree) (source : Option Nat) :
    (s.startWith state source).anonymous = s.anonymous.startWith state none :=
  push_anonymous ..

theorem insert_anonymous (s : Schedule) (c : Change) (time : Binary64) (timing : Timing)
    (source : Option Nat) :
    (s.insert c time timing source).anonymous = s.anonymous.insert c time timing none := by
  unfold insert
  rw [opening_anonymous]
  cases timing.joining with
  | override =>
    simp only
    rw [push_anonymous, interrupt_anonymous]
    rfl
  | chain => exact push_anonymous ..

theorem insertAll_anonymous (s : Schedule) (cs : List Change) (time : Binary64)
    (timing : Change → Timing) (source : Option Nat) :
    (cs.foldl (fun s c => s.insert c time (timing c) source) s).anonymous =
      cs.foldl (fun s c => s.insert c time (timing c) none) s.anonymous := by
  induction cs generalizing s with
  | nil => rfl
  | cons c cs ih => rw [List.foldl_cons, List.foldl_cons, ih, insert_anonymous]

theorem retire_anonymous (rs : List Transition) (g : Transition) :
    retire (rs.map Transition.anonymous) g.anonymous =
      (retire rs g).map Transition.anonymous := by
  unfold retire dropShadowed
  rw [filter_anonymous _ fun _ => rfl, List.map_map, List.map_map]
  congr 1
  funext r
  exact handDown_anonymous g r

theorem retireCounting_anonymous (s : Nat × List Transition) (g : Transition) :
    retireCounting (s.1, s.2.map Transition.anonymous) g.anonymous =
      ((retireCounting s g).1, (retireCounting s g).2.map Transition.anonymous) := by
  have dropped := filter_anonymous (fun r => !isShadowedBy g.anonymous r) (fun _ => rfl) s.2
  simp only [retireCounting, retire_anonymous, dropShadowed, dropped, List.length_map]
  rfl

theorem foldl_retireCounting_anonymous (gone : List Transition) (s : Nat × List Transition) :
    (gone.map Transition.anonymous).foldl retireCounting (s.1, s.2.map Transition.anonymous) =
      ((gone.foldl retireCounting s).1,
        (gone.foldl retireCounting s).2.map Transition.anonymous) := by
  induction gone generalizing s with
  | nil => rfl
  | cons g gone ih =>
    rw [List.map_cons, List.foldl_cons, List.foldl_cons, retireCounting_anonymous, ih]

theorem evict_anonymous (s : Schedule) (time : Binary64) :
    s.anonymous.evict time = ((s.evict time).1, (s.prune time).anonymous) := by
  have gone := filter_anonymous (·.isOverBefore time) (fun _ => rfl) s.transitions
  have kept := filter_anonymous (fun r => !r.isOverBefore time) (fun _ => rfl) s.transitions
  have left := foldl_retireCounting_anonymous
    (byPrecedence (s.transitions.filter (·.isOverBefore time)))
    ((s.transitions.filter (·.isOverBefore time)).length,
      s.transitions.filter fun r => !r.isOverBefore time)
  simp only [prune, evict, anonymous, gone, kept, byPrecedence_anonymous, left, List.length_map]

end Schedule

namespace Frame

theorem addWinner_anonymous (time : Binary64) (r : Transition) (ws : List Transition) :
    addWinner time r.anonymous (ws.map Transition.anonymous) =
      (addWinner time r ws).map Transition.anonymous := by
  induction ws with
  | nil => rfl
  | cons w ws ih =>
    have same : Path.compare r.anonymous.path w.anonymous.path = Path.compare r.path w.path := rfl
    rw [List.map_cons, addWinner, addWinner, same]
    split
    · rfl
    · rw [List.map_cons]
      congr 1
      exact (apply_ite Transition.anonymous ..).symm
    · rw [List.map_cons, ih]

theorem winners_anonymous (time : Binary64) (rs : List Transition) :
    winners time (rs.map Transition.anonymous) = (winners time rs).map Transition.anonymous := by
  suffices moved : ∀ ws, (rs.map Transition.anonymous).foldl (fun ws r => addWinner time r ws)
      (ws.map Transition.anonymous) =
        (rs.foldl (fun ws r => addWinner time r ws) ws).map Transition.anonymous from moved []
  induction rs with
  | nil => exact fun _ => rfl
  | cons r rs ih =>
    intro ws
    rw [List.map_cons, List.foldl_cons, List.foldl_cons, addWinner_anonymous, ih]

/-- A frame does not depend on the messages that caused its transitions. -/
theorem ofTransitions_anonymous (rs : List Transition) (time : Binary64) :
    ofTransitions (rs.map Transition.anonymous) time = ofTransitions rs time := by
  have hidden : (fun r => !isHidden time ((winners time rs).map Transition.anonymous) r) =
      fun r => !isHidden time (winners time rs) r := by
    funext r
    simp only [isHidden, List.any_map]
    rfl
  unfold ofTransitions
  simp only [winners_anonymous, hidden]
  rw [Schedule.filter_anonymous _ fun _ => rfl, List.foldl_map]
  rfl

end Frame

theorem Schedule.frameAt_eq_of_anonymous {s s' : Schedule} (same : s'.anonymous = s.anonymous)
    (time : Binary64) : s'.frameAt time = s.frameAt time := by
  have transitions : s'.transitions.map Transition.anonymous =
      s.transitions.map Transition.anonymous := congrArg (·.transitions) same
  rw [frameAt, frameAt, ← Frame.ofTransitions_anonymous, transitions,
    Frame.ofTransitions_anonymous]

/-! ## States that have counted a rejection -/

namespace GameState

variable (s : GameState) (outcome : Outcome)

@[simp] theorem noting_tree : (s.noting outcome).tree = s.tree := by cases outcome <;> rfl

@[simp] theorem noting_loaded : (s.noting outcome).loaded = s.loaded := by cases outcome <;> rfl

@[simp] theorem noting_streamVersion (patch : Patch) :
    (s.noting outcome).streamVersion patch = s.streamVersion patch := by cases outcome <;> rfl

@[simp] theorem noting_stale? (version : Option Int) (patch : Patch) :
    (s.noting outcome).stale? version patch = s.stale? version patch := by cases outcome <;> rfl

/-- What was rejected before makes no difference to an update. -/
theorem revise_noting {s : GameState} {u : Revision}
    (fresh : s.stale? u.version u.patch = none) :
    (s.noting outcome).revise u = (s.revise u).noting outcome := by
  unfold revise apply
  rw [noting_stale?, fresh, noting_streamVersion]
  cases u.patch.isTournament <;> cases outcome <;> simp [noting]

end GameState

/-- An event without the number of the message that it tells of. -/
def Event.anonymous : Event → Event
  | .stateApplied _ version initial changes => .stateApplied 0 version initial changes
  | .staleDropped _ error => .staleDropped 0 error
  | .ticked state => .ticked state
  | .clockRejected error => .clockRejected error
  | .pruned count remaining => .pruned count remaining

namespace Table

/-! ## A run with a rejection and a run without -/

/-- `b` is what `a` is, and it has noted a rejected message besides. The numbers of messages are one
higher from there on, so transitions may give other ones as their causes. -/
structure Beside (outcome : Outcome) (a b : Table) : Prop where
  gameState : b.gameState = a.gameState.noting outcome
  schedule : b.schedule.anonymous = a.schedule.anonymous
  clock : b.clock = a.clock
  rules : b.rules = a.rules
  tally : b.tally = a.tally.noting outcome
  nextMessage : b.nextMessage = a.nextMessage + 1

variable {a b t : Table} {outcome : Outcome} {u : Revision}

theorem beside_noting (t : Table) (outcome : Outcome) : Beside outcome t (t.noting outcome) :=
  ⟨rfl, rfl, rfl, rfl, rfl, rfl⟩

namespace Beside

variable (h : Beside outcome a b)
include h

theorem frameAt (time : Binary64) : b.frameAt time = a.frameAt time :=
  Schedule.frameAt_eq_of_anonymous h.schedule time

theorem now : b.now = a.now := congrArg Clock.now h.clock

theorem changesOf (u : Revision) : b.changesOf u = a.changesOf u := by
  simp [Table.changesOf, h.gameState]

theorem reached (u : Revision) : b.reached u = a.reached u := by
  simp [Table.reached, h.gameState]

theorem scheduleWith (u : Revision) :
    (b.scheduleWith u).anonymous = (a.scheduleWith u).anonymous := by
  simp only [Table.scheduleWith, h.gameState, GameState.noting_loaded, GameState.noting_tree]
  split
  · rw [insertAll, insertAll, Schedule.insertAll_anonymous, Schedule.insertAll_anonymous,
      h.changesOf, h.now, h.rules, h.schedule]
  · rw [Schedule.startWith_anonymous, Schedule.startWith_anonymous, h.schedule]

/-- A second rejection is noted on either side. -/
theorem noting (other : Outcome) : Beside outcome (a.noting other) (b.noting other) where
  gameState := by
    show b.gameState.noting other = _
    rw [h.gameState]
    cases outcome <;> cases other <;> rfl
  schedule := h.schedule
  clock := h.clock
  rules := h.rules
  tally := by
    show b.tally.noting other = _
    rw [h.tally]
    cases outcome <;> cases other <;> rfl
  nextMessage := congrArg (· + 1) h.nextMessage

/-- The schedules are equally long and have lost equally many transitions. -/
theorem countSchedule : Beside outcome (countSchedule a) (countSchedule b) where
  gameState := h.gameState
  schedule := h.schedule
  clock := h.clock
  rules := h.rules
  tally := by
    have depth : b.schedule.transitions.length = a.schedule.transitions.length := by
      simpa [Schedule.anonymous] using congrArg (·.transitions.length) h.schedule
    have interrupted : b.schedule.interrupted = a.schedule.interrupted :=
      congrArg (·.interrupted) h.schedule
    have pruned : b.schedule.pruned = a.schedule.pruned := congrArg (·.pruned) h.schedule
    simp only [Table.countSchedule, h.tally, depth, interrupted, pruned]
    cases outcome <;> rfl
  nextMessage := h.nextMessage

theorem taking (fresh : a.gameState.stale? u.version u.patch = none) :
    Beside outcome (a.taking u) (b.taking u) := by
  apply countSchedule
  constructor
  case gameState =>
    rw [h.gameState]
    exact GameState.revise_noting outcome fresh
  case schedule => exact h.scheduleWith u
  case clock => exact h.clock
  case rules => exact h.rules
  case tally =>
    simp only [counted, h.tally, h.changesOf]
    cases outcome <;> rfl
  case nextMessage => exact congrArg (· + 1) h.nextMessage

theorem evict_anonymous (time : Binary64) :
    (b.schedule.evict time).1 = (a.schedule.evict time).1 ∧
      (b.schedule.prune time).anonymous = (a.schedule.prune time).anonymous := by
  have same := congrArg (·.evict time) h.schedule
  simp only [Schedule.evict_anonymous] at same
  exact Prod.mk.inj same

theorem moving (step : Tick) : Beside outcome (a.moving step) (b.moving step) := by
  apply countSchedule
  constructor
  case gameState => exact h.gameState
  case schedule =>
    simp only [h.rules]
    exact (h.evict_anonymous _).2
  case clock => simp only [h.clock]
  case rules => exact h.rules
  case tally =>
    simp only [counted, h.tally]
    cases outcome <;> rfl
  case nextMessage => exact congrArg (· + 1) h.nextMessage

theorem prunedEvents (time : Binary64) : b.prunedEvents time = a.prunedEvents time := by
  obtain ⟨count, same⟩ := h.evict_anonymous time
  have remaining : (b.schedule.evict time).2.transitions.length =
      (a.schedule.evict time).2.transitions.length := by
    simpa [Schedule.anonymous, Schedule.prune] using congrArg (·.transitions.length) same
  simp only [Table.prunedEvents, Table.prune, remaining, count]

/-- A message comes to the same on both sides, and they stay as they were to each other. -/
theorem receive (m : Message) :
    (b.receive m).1 = (a.receive m).1 ∧
      (b.receive m).2.1.map Event.anonymous = (a.receive m).2.1.map Event.anonymous ∧
      Beside outcome (a.receive m).2.2 (b.receive m).2.2 := by
  cases brings : m.revision? with
  | some u =>
    rw [receive_update brings, receive_update brings, h.gameState, GameState.noting_stale?]
    cases stale : a.gameState.stale? u.version u.patch with
    | some e => exact ⟨rfl, rfl, h.noting _⟩
    | none =>
      simp only [h.reached, h.changesOf, GameState.noting_loaded]
      exact ⟨trivial, rfl, h.taking stale⟩
  | none =>
    cases m with
    | gameState | tournament => cases brings
    | tick step =>
      rw [receive_step, receive_step]
      cases Clock.refusal? step.time step.former with
      | some e => exact ⟨rfl, rfl, h.noting _⟩
      | none =>
        simp only [h.clock, h.rules, h.prunedEvents]
        exact ⟨trivial, trivial, h.moving step⟩
    | chat | notification | unrecognized =>
      rw [receive_other brings (by simp), receive_other brings (by simp)]
      exact ⟨rfl, rfl, h.noting _⟩

theorem receiveAll (ms : List Message) :
    Beside outcome (a.receiveAll ms).2 (b.receiveAll ms).2 := by
  induction ms generalizing a b with
  | nil => exact h
  | cons m ms ih =>
    rw [receiveAll_cons, receiveAll_cons]
    exact ih (h.receive m).2.2

end Beside

/-! ## Rejections -/

theorem Leaves.eq_noting {m : Message} {t' : Table} (leaves : Leaves t m outcome t')
    (rejects : outcome.isRejection = true) : t' = t.noting outcome := by
  cases leaves with
  | noting => rfl
  | taking | moving => cases rejects

/-- A rejected message leaves a table that takes nothing for fatal as it was, but that the message
is counted, and counted once as rejected: the state with its versions, the schedule, the clock and
every frame are the same. Whatever messages follow, they come to the same outcomes and the same
events as without it, and to tables of which one has noted the rejection and the other has not. -/
theorem deliver_rejected {t t' : Table} {m : Message} {outcome : Outcome} {events : List Event}
    (tolerant : t.clock.fatal = false) (delivered : t.deliver m = .ok (outcome, events, t'))
    (rejected : outcome.isRejection = true) :
    t' = t.noting outcome ∧ (∀ time, t'.frameAt time = t.frameAt time) ∧
      ∀ ms, ∃ u u', t.deliverAll ms = .ok u ∧ t'.deliverAll ms = .ok u' ∧
        Beside outcome u u' ∧ (∀ time, u'.frameAt time = u.frameAt time) ∧
        ∀ next, ∃ answer answer', u.deliver next = .ok answer ∧ u'.deliver next = .ok answer' ∧
          answer'.1 = answer.1 ∧
          answer'.2.1.map Event.anonymous = answer.2.1.map Event.anonymous := by
  rw [deliver_of_tolerant tolerant] at delivered
  have received : t.receive m = (outcome, events, t') := Except.ok.inj delivered
  have left : t' = t.noting outcome := by
    have leaves := leaves_receive t m
    rw [received] at leaves
    exact leaves.eq_noting rejected
  refine ⟨left, fun time => by rw [left]; rfl, fun ms => ?_⟩
  have beside := (left ▸ beside_noting t outcome : Beside outcome t t').receiveAll ms
  have tolerant' : t'.clock.fatal = false := by
    rw [left]
    exact tolerant
  refine ⟨_, _, deliverAll_of_tolerant tolerant ms, deliverAll_of_tolerant tolerant' ms, beside,
    beside.frameAt, fun next => ?_⟩
  have same := beside.receive next
  exact ⟨_, _, deliver_of_tolerant (receiveAll_fatal tolerant ms) next,
    deliver_of_tolerant (receiveAll_fatal tolerant' ms) next, same.1, same.2.1⟩

/-- A snapshot that comes twice, and after it another one and a tick that prunes. The causes of the
transitions have other numbers than without the second one. -/
theorem deliver_rejected_twice_sent :
    let rules : MotionRules := { duration := 100, pruneGrace := 0 }
    let pot (n : Int) : Tree := .map [("pot", .amount (.ofInt n))]
    let t := (((start rules).setFatal false).receiveAll
      [.gameState ⟨some 1, pot 10, false⟩, .gameState ⟨some 2, pot 20, false⟩]).2
    let m : Message := .gameState ⟨some 2, pot 20, false⟩
    let ms : List Message := [.tick ⟨50, 0, none⟩, .gameState ⟨some 3, pot 35, false⟩]
    t.deliver m =
        .ok (.stale ⟨2, 2⟩, [.staleDropped 2 ⟨2, 2⟩], t.noting (.stale ⟨2, 2⟩)) ∧
      ∃ u u', t.deliverAll ms = .ok u ∧ (t.noting (.stale ⟨2, 2⟩)).deliverAll ms = .ok u' ∧
        u'.gameState.dropped = 1 ∧ u'.schedule ≠ u.schedule ∧
        (u'.frameAt 100).root = (u.frameAt 100).root ∧ (u.frameAt 100).root = some (pot 25) := by
  intro rules pot t m ms
  have delivered : t.deliver m =
      .ok (.stale ⟨2, 2⟩, [.staleDropped 2 ⟨2, 2⟩], t.noting (.stale ⟨2, 2⟩)) := by
    rw [deliver_of_tolerant rfl]
    exact congrArg Except.ok (by decide +kernel)
  obtain ⟨-, -, later⟩ := deliver_rejected rfl delivered rfl
  obtain ⟨u, u', run, run', beside, frames, -⟩ := later ms
  have left : u = (t.receiveAll ms).2 :=
    Except.ok.inj (run.symm.trans (deliverAll_of_tolerant rfl ms))
  have left' : u' = ((t.noting (.stale ⟨2, 2⟩)).receiveAll ms).2 :=
    Except.ok.inj (run'.symm.trans (deliverAll_of_tolerant rfl ms))
  refine ⟨delivered, u, u', run, run', ?_, ?_, by rw [frames], ?_⟩
  · rw [beside.gameState, left]
    decide +kernel
  · rw [left, left']
    decide +kernel
  · rw [left]
    decide +kernel

end Table

end TableMotion
