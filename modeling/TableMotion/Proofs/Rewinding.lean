import TableMotion.Proofs.Pruning
import TableMotion.Proofs.Replaying
import TableMotion.Proofs.Settling

/-!
# Replays to a time

A replay to a time plays the longest initial part of a recording without a tick past that time
(`isLongestUpTo_entriesOf`) and leaves the clock exactly there. The step to the time may prune, and
ticks may have gone in any order before; without lists neither is seen, so the frame is the one that
the entries lead to (`replay_time`).
-/

namespace TableMotion

open TableMotion.Tree

/-! ## Up to a time -/

/-- A tick to a time past another. -/
def Entry.TicksPast (limit : Binary64) (e : Entry) : Prop :=
  ∃ step, e.message = .tick step ∧ limit < step.time

/-- The longest initial part of some entries without a tick past a time. -/
structure IsLongestUpTo (limit : Binary64) (all played : List Entry) : Prop where
  initial : played <+: all
  before : ∀ e ∈ played, ¬ e.TicksPast limit
  longest : ∀ others, others <+: all → (∀ e ∈ others, ¬ e.TicksPast limit) → others <+: played

namespace Extent

theorem isPassedBy_time_iff {limit : Binary64} {e : Entry} :
    (time limit).isPassedBy e = true ↔ e.TicksPast limit := by
  obtain ⟨seq, m⟩ := e
  cases m with
  | tick step => simp [isPassedBy, Entry.TicksPast]
  | gameState | tournament | chat | notification | unrecognized =>
    simp [isPassedBy, Entry.TicksPast]

theorem isLongestUpTo_entriesOf (limit : Binary64) (r : Recording) :
    IsLongestUpTo limit r.inOrder ((time limit).entriesOf r) where
  initial := List.takeWhile_prefix _
  before := by
    intro e he
    have stays := List.mem_takeWhile_imp he
    rw [← isPassedBy_time_iff]
    simpa using stays
  longest := by
    rintro others ⟨rest, split⟩ before
    have stays : ∀ e ∈ others, (!(time limit).isPassedBy e) = true := by
      intro e he
      rw [Bool.not_eq_true', ← Bool.not_eq_true, isPassedBy_time_iff]
      exact before e he
    rw [entriesOf, ← split, List.takeWhile_append_of_pos stays]
    exact List.prefix_append ..

/-- A later time plays on from where an earlier one stops. -/
theorem entriesOf_time_mono {limit later : Binary64} (le : limit ≤ later) (r : Recording) :
    (time limit).entriesOf r <+: (time later).entriesOf r := by
  have early := isLongestUpTo_entriesOf limit r
  apply (isLongestUpTo_entriesOf later r).longest _ early.initial
  rintro e he ⟨step, tick, past⟩
  exact early.before e he ⟨step, tick, le.1, past.2.1, Int.lt_of_le_of_lt le.2.2 past.2.2⟩

end Extent

/-! ## Schedules without lists -/

namespace Schedule

/-- A sound schedule without lists. -/
structure SoundPlain (s : Schedule) : Prop extends s.Sound where
  ends : ∀ r ∈ s.transitions, r.PlainEnds

variable {s : Schedule} {time : Binary64}

theorem soundPlain_startWith (nothing : s.transitions = []) {state : Tree} (plain : state.Plain)
    (source : Option Nat) : (s.startWith state source).SoundPlain where
  toSound := sound_startWith nothing plain.wellFormed source
  ends := by
    intro r hr
    rw [startWith_transitions nothing] at hr
    rw [List.mem_singleton.1 hr]
    exact ⟨slot_some.2 plain, slot_some.2 plain⟩

theorem SoundPlain.insert (h : s.SoundPlain) {c : Change} {timing : Timing}
    (finite : time.isFinite = true) (finiteDuration : timing.duration.isFinite = true)
    (sides : HasSides Plain c) (source : Option Nat) :
    (s.insert c time timing source).SoundPlain where
  toSound := h.toSound.insert finite finiteDuration (sides.1.imp fun _ => Plain.wellFormed)
    (sides.2.imp fun _ => Plain.wellFormed) source
  ends := by
    refine forall_insert (fun g hg r hr => plainEnds_handDown (h.ends g hg).finish hr) h.ends ?_
    exact ⟨plainSlot_opening h.ends sides.1 time timing.joining, sides.2⟩

theorem SoundPlain.insertAll (h : s.SoundPlain) (finite : time.isFinite = true)
    {timing : Change → Timing} (durations : ∀ c, (timing c).duration.isFinite = true)
    {cs : List Change} (sides : ∀ c ∈ cs, HasSides Plain c) (source : Option Nat) :
    (cs.foldl (fun s c => s.insert c time (timing c) source) s).SoundPlain := by
  induction cs generalizing s with
  | nil => exact h
  | cons c cs ih =>
    have next := h.insert finite (durations c) (sides c List.mem_cons_self) source
    exact ih next fun x hx => sides x (List.mem_cons_of_mem c hx)

theorem SoundPlain.prune (h : s.SoundPlain) (time : Binary64) : (s.prune time).SoundPlain where
  toSound := h.toSound.prune time
  ends := forall_prune (fun g hg _ hr => plainEnds_handDown (h.ends g hg).finish hr) h.ends time

end Schedule

namespace Table

open Schedule

/-! ## Runs -/

theorem now_isFinite_receiveAll {t : Table} (h : t.now.isFinite = true) (ms : List Message) :
    (t.receiveAll ms).2.now.isFinite = true := by
  refine holds_receiveAll_of_moves (Q := fun t => t.now.isFinite = true) ?_ h
  intro t m t' _ finite move
  cases move with
  | stay _ clock => rwa [show t'.now = t.now from congrArg Clock.now clock]
  | update _ _ _ clock => rwa [show t'.now = t.now from congrArg Clock.now clock]
  | tick step finiteTime _ _ now => rwa [now]

/-- What every message without lists keeps, whatever the clock does. -/
structure Plotted (t : Table) : Prop where
  finite : t.now.isFinite = true
  rules : t.rules.Finite
  plain : t.gameState.tree.Plain
  waiting : t.gameState.loaded = false → t.schedule.transitions = []
  sound : t.gameState.loaded = true → t.schedule.SoundPlain

theorem plotted_start {rules : MotionRules} (h : rules.Finite) (fatal : Bool) :
    ((start rules).setFatal fatal).Plotted where
  finite := Binary64.zero_isFinite
  rules := h
  plain := ⟨trivial, rfl⟩
  waiting _ := rfl
  sound := nofun

theorem Plotted.move {t t' : Table} (h : t.Plotted) {m : Message} (brings : m.Brings Plain)
    (move : Move t m t') : t'.Plotted := by
  have rules : t'.rules.Finite := by
    rw [move.rules_eq]
    exact h.rules
  cases move with
  | stay _ clock schedule tree loaded _ =>
    have now : t'.now = t.now := congrArg Clock.now clock
    constructor
    · rw [now]
      exact h.finite
    · exact rules
    · rw [tree]
      exact h.plain
    · rw [loaded, schedule]
      exact h.waiting
    · rw [loaded, schedule]
      exact h.sound
  | update patch brought _ clock tree loaded _ schedule =>
    have now : t'.now = t.now := congrArg Clock.now clock
    have plain : t'.gameState.tree.Plain := by
      rw [tree]
      exact Patch.holds_applyTo plain_stable (brought Plain brings) h.plain
    constructor
    · rw [now]
      exact h.finite
    · exact rules
    · exact plain
    · rw [loaded]
      nofun
    · intro _
      rw [schedule]
      split
      · rename_i before
        exact (h.sound before).insertAll h.finite h.rules.timingOf
          (hasSides_changes plain_ofParts _ _ h.plain plain) _
      · rename_i first
        exact soundPlain_startWith (h.waiting (by simpa using first)) plain _
  | tick step finite _ _ now gameState schedule =>
    constructor
    · rw [now]
      exact finite
    · exact rules
    · rw [gameState]
      exact h.plain
    · rw [gameState, schedule]
      exact fun notLoaded => prune_of_nil (h.waiting notLoaded) _
    · rw [gameState, schedule]
      exact fun loaded => (h.sound loaded).prune _

theorem Plotted.receiveAll {t : Table} (h : t.Plotted) {ms : List Message}
    (brings : ∀ m ∈ ms, m.Brings Plain) : (t.receiveAll ms).2.Plotted :=
  holds_receiveAll_of_moves (fun _ _ _ hm plotted move => plotted.move (brings _ hm) move) h

/-! ## The step to the time -/

theorem tick_of_accepted (t : Table) (step : Tick)
    (accepted : Clock.refusal? step.time step.former = none) :
    (t.tick step).2.2.now = step.time ∧
      (t.tick step).2.2.schedule = t.schedule.prune (step.time - t.rules.pruneGrace) ∧
      (t.tick step).2.2.gameState = t.gameState := by
  simp [Table.tick, Clock.tick, accepted, Table.prune, Schedule.prune, countSchedule, now,
    Clock.now]

/-- Where the clock is not past a time, the step there is an accepted tick; where it is, the clock
jumps back. -/
theorem landOn_time {t : Table} {limit : Binary64} (events : List Event)
    (finite : t.now.isFinite = true) (finiteLimit : limit.isFinite = true) :
    (landOn (.time limit) (events, t)).2.now = limit ∧
      (landOn (.time limit) (events, t)).2.gameState = t.gameState ∧
      ((landOn (.time limit) (events, t)).2.schedule =
          t.schedule.prune (limit - t.rules.pruneGrace) ∨
        (landOn (.time limit) (events, t)).2.schedule = t.schedule) := by
  by_cases le : t.now ≤ limit
  · have forward : ¬ limit < t.now := (Binary64.not_lt le.2.1 le.1).2 le
    have accepted : Clock.refusal? limit t.now = none := by
      simp [Clock.refusal?, finite, finiteLimit, forward]
    have landed : (landOn (.time limit) (events, t)).2 = (t.tick ⟨limit, t.now, none⟩).2.2 := by
      simp only [landOn, le, if_true]
    obtain ⟨now, schedule, gameState⟩ := tick_of_accepted t ⟨limit, t.now, none⟩ accepted
    rw [landed]
    exact ⟨now, gameState, Or.inl schedule⟩
  · have landed : (landOn (.time limit) (events, t)).2 =
        { t with clock := t.clock.jump limit } := by
      simp only [landOn, le, if_false]
    rw [landed]
    exact ⟨rfl, rfl, Or.inr rfl⟩

/-- Without lists the step to a time is not seen there. -/
theorem Plotted.root_frameAt_landOn {t : Table} (h : t.Plotted) {limit : Binary64}
    (events : List Event) (finite : limit.isFinite = true) (nonneg : 0 ≤ limit)
    (grace : 0 ≤ t.rules.pruneGrace) :
    ((landOn (.time limit) (events, t)).2.frameAt limit).root = (t.frameAt limit).root := by
  obtain ⟨-, -, pruned | same⟩ := landOn_time events h.finite finite
  · rw [frameAt, pruned]
    cases loaded : t.gameState.loaded with
    | true =>
      have sound := h.sound loaded
      exact sound.root_frameAt_prune sound.ends (Binary64.sub_le_self finite grace) nonneg
    | false =>
      have nothing := h.waiting loaded
      rw [Schedule.frameAt, prune_of_nil nothing, ← nothing]
      rfl
  · rw [frameAt, same]
    rfl

/-! ## Replays -/

/-- A replay to a time ends exactly there. It plays the longest initial part of the recording
without a tick past the time, which is an initial part of what a replay to a later time plays. What
it leaves is the state of a fresh table, which takes nothing for fatal, that those entries were
delivered to, and without lists also its frame at that time. -/
theorem replay_time {t : Table} (rules : t.rules.Finite) (grace : 0 ≤ t.rules.pruneGrace)
    (r : Recording) {limit : Binary64} (finite : limit.isFinite = true) :
    let played := (Extent.time limit).entriesOf r
    let replayed := t.replay r (.time limit)
    (replayed.2.2.now = limit ∧ replayed.1.time = limit) ∧
      (IsLongestUpTo limit r.inOrder played ∧ replayed.1.entriesApplied = played.length) ∧
      (∀ later : Binary64, limit ≤ later → played <+: (Extent.time later).entriesOf r) ∧
      ∃ fresh, ((start t.rules).setFatal false).deliverAll (played.map (·.message)) = .ok fresh ∧
        replayed.2.2.gameState = fresh.gameState ∧
        (0 ≤ limit → (∀ e ∈ r.entries, e.message.Brings Plain) →
          replayed.2.2.frame.root = (fresh.frameAt limit).root) := by
  intro played replayed
  have agrees := agrees_replay r (.time limit) t
  have run := now_isFinite_receiveAll (t := (start t.rules).setFatal false)
    Binary64.zero_isFinite (played.map (·.message))
  obtain ⟨now, gameState, -⟩ := landOn_time
    (((start t.rules).setFatal false).receiveAll (played.map (·.message))).1 run finite
  have atLimit : replayed.2.2.now = limit := agrees.now.trans now
  refine ⟨⟨atLimit, atLimit⟩, ⟨Extent.isLongestUpTo_entriesOf limit r, rfl⟩,
    fun later le => Extent.entriesOf_time_mono le r, _, deliverAll_of_tolerant rfl _,
    agrees.gameState.trans gameState, ?_⟩
  intro nonneg brings
  have plotted : (((start t.rules).setFatal false).receiveAll
      (played.map (·.message))).2.Plotted := by
    refine (plotted_start rules false).receiveAll fun m hm => ?_
    obtain ⟨e, he, rfl⟩ := List.mem_map.1 hm
    have member := (List.takeWhile_prefix _).subset he
    exact brings e (List.mem_mergeSort.1 member)
  have graceRun : 0 ≤ (((start t.rules).setFatal false).receiveAll
      (played.map (·.message))).2.rules.pruneGrace := by
    rw [receiveAll_rules]
    exact grace
  rw [frame, atLimit]
  have drawn : replayed.2.2.frameAt limit = _ := congrArg (·.frameAt limit) agrees.schedule
  rw [drawn]
  exact plotted.root_frameAt_landOn _ finite nonneg graceRun

/-- The pot goes to twenty at 40 and, after a tick that leads back, to thirty at 30. At 75 both are
over, and the one that began last is drawn. The tick to 100 and all that follows are left out. -/
theorem replay_time_led_back :
    let rules : MotionRules := { duration := 20, pruneGrace := 0 }
    let state (pot : Int) (seat : String) : Tree :=
      .map [("pot", .amount (.ofInt pot)), ("seat", .text seat)]
    let t := start rules
    let r : Recording := ⟨[⟨7, .gameState ⟨some 4, state 40 "dee", false⟩⟩,
      ⟨1, .gameState ⟨some 1, state 10 "ada", false⟩⟩, ⟨2, .tick ⟨40, 0, none⟩⟩,
      ⟨3, .gameState ⟨some 2, state 20 "bob", false⟩⟩, ⟨4, .tick ⟨30, 20, none⟩⟩,
      ⟨5, .gameState ⟨some 3, state 30 "bob", false⟩⟩, ⟨6, .tick ⟨100, 30, none⟩⟩]⟩
    (t.replay r (.time 75)).2.2.now = 75 ∧ (t.replay r (.time 75)).1.entriesApplied = 5 ∧
      (t.replay r (.time 75)).2.2.gameState.tree = state 30 "bob" ∧
      (t.replay r (.time 75)).2.2.frame.root = some (state 20 "bob") := by
  intro rules state t r
  have finiteRules : t.rules.Finite := ⟨by decide +kernel, by decide +kernel⟩
  have grace : 0 ≤ t.rules.pruneGrace := by decide +kernel
  have finite : (75 : Binary64).isFinite = true := by decide +kernel
  have nonneg : (0 : Binary64) ≤ 75 := by decide +kernel
  have brings : ∀ e ∈ r.entries, e.message.Brings Plain := by decide +kernel
  obtain ⟨⟨now, -⟩, ⟨-, applied⟩, -, fresh, delivered, reached, drawn⟩ :=
    replay_time finiteRules grace r finite
  have played : (Extent.time 75).entriesOf r =
      [⟨1, .gameState ⟨some 1, state 10 "ada", false⟩⟩, ⟨2, .tick ⟨40, 0, none⟩⟩,
        ⟨3, .gameState ⟨some 2, state 20 "bob", false⟩⟩, ⟨4, .tick ⟨30, 20, none⟩⟩,
        ⟨5, .gameState ⟨some 3, state 30 "bob", false⟩⟩] := by
    have ordered : ∀ a b c d e f g : Message, Recording.inOrder
        ⟨[⟨7, a⟩, ⟨1, b⟩, ⟨2, c⟩, ⟨3, d⟩, ⟨4, e⟩, ⟨5, f⟩, ⟨6, g⟩]⟩ =
        [⟨1, b⟩, ⟨2, c⟩, ⟨3, d⟩, ⟨4, e⟩, ⟨5, f⟩, ⟨6, g⟩, ⟨7, a⟩] := by
      intros
      cbv
    rw [Extent.entriesOf, ordered]
    decide +kernel
  rw [played, deliverAll_of_tolerant rfl] at delivered
  obtain rfl := Except.ok.inj delivered
  refine ⟨now, ?_, ?_, ?_⟩
  · rw [applied, played]
    rfl
  · rw [reached]
    decide +kernel
  · rw [drawn nonneg brings]
    decide +kernel

end Table

end TableMotion
