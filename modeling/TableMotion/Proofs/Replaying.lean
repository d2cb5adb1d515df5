import Mathlib.Data.List.Permutation
import Mathlib.Data.List.TakeWhile
import TableMotion.Proofs.Moves
import TableMotion.Table.Replay

/-!
# Replays forget what was before

What a message does to a table depends neither on the speed of the clock nor on what the clock takes
for fatal (`Agrees.receive`), and a replay resets everything else. So all tables with the same rules
come out of a replay alike, and out of one that does not land on a time as a fresh table that the
entries were delivered to (`replay_eq_of_rules_eq`).
-/

namespace TableMotion

/-! ## The order of the entries -/

namespace Recording

/-- Entries by number. Those that share a number keep the order in which they stand. -/
structure StableOrder (entries ordered : List Entry) : Prop where
  sorted : ordered.Pairwise fun a b => a.seq ≤ b.seq
  stable : ∀ n, ordered.filter (·.seq = n) = entries.filter (·.seq = n)

variable {entries ordered : List Entry}

theorem stableOrder_inOrder (r : Recording) : StableOrder r.entries r.inOrder := by
  have trans : ∀ a b c : Entry, decide (a.seq ≤ b.seq) = true → decide (b.seq ≤ c.seq) = true →
      decide (a.seq ≤ c.seq) = true := by
    simp only [decide_eq_true_eq]
    exact fun a b c => Nat.le_trans
  have total : ∀ a b : Entry, (decide (a.seq ≤ b.seq) || decide (b.seq ≤ a.seq)) = true := by
    simp only [Bool.or_eq_true, decide_eq_true_eq]
    exact fun a b => Nat.le_total ..
  refine ⟨?_, fun n => ?_⟩
  · exact (List.pairwise_mergeSort trans total r.entries).imp of_decide_eq_true
  · -- entries with one number are in order already, so sorting keeps them as they are
    have level : (r.entries.filter (·.seq = n)).Pairwise fun a b => decide (a.seq ≤ b.seq) := by
      rw [List.pairwise_filter]
      refine List.pairwise_of_forall fun a b ha hb => ?_
      rw [of_decide_eq_true ha, of_decide_eq_true hb]
      exact decide_eq_true (Nat.le_refl n)
    have kept := (List.sublist_mergeSort trans total level List.filter_sublist).filter (·.seq = n)
    rw [List.filter_filter] at kept
    simp only [Bool.and_self] at kept
    have perm := (List.mergeSort_perm r.entries fun a b => a.seq ≤ b.seq).filter (·.seq = n)
    exact (kept.eq_of_length perm.length_eq.symm).symm

/-- Selecting entries by number keeps the order. -/
theorem StableOrder.filter (h : StableOrder entries ordered) (chosen : Nat → Bool) :
    StableOrder (entries.filter fun e => chosen e.seq) (ordered.filter fun e => chosen e.seq) where
  sorted := h.sorted.filter _
  stable := by
    intro n
    have swap : ∀ es : List Entry, (es.filter fun e => chosen e.seq).filter (·.seq = n) =
        (es.filter (·.seq = n)).filter fun e => chosen e.seq := by
      intro es
      simp only [List.filter_filter, Bool.and_comm]
    rw [swap, swap, h.stable]

end Recording

namespace Extent

/-- Up to a number, passing an entry by passes by all that follow. -/
theorem entriesOf_sequence (limit : Nat) (r : Recording) :
    (sequence limit).entriesOf r = r.inOrder.filter fun e => e.seq ≤ limit := by
  have same : (fun e : Entry => !(sequence limit).isPassedBy e) =
      fun e : Entry => decide (e.seq ≤ limit) := by
    funext e
    simp only [isPassedBy, ← decide_not, Nat.not_lt]
  have sorted := (Recording.stableOrder_inOrder r).sorted
  rw [entriesOf, same]
  generalize r.inOrder = ordered at sorted
  induction sorted with
  | nil => rfl
  | @cons e es first _ ih =>
    by_cases inside : e.seq ≤ limit
    · rw [List.takeWhile_cons_of_pos (by simpa using inside),
        List.filter_cons_of_pos (by simpa using inside), ih]
    · have past : ∀ x ∈ es, ¬ x.seq ≤ limit := fun x hx within =>
        inside (Nat.le_trans (first x hx) within)
      rw [List.takeWhile_cons_of_neg (by simpa using inside),
        List.filter_cons_of_neg (by simpa using inside), eq_comm, List.filter_eq_nil_iff]
      simpa using past

theorem entriesOf_whole (r : Recording) : whole.entriesOf r = r.inOrder := by
  rw [entriesOf]
  exact List.takeWhile_eq_self_iff.2 fun e _ => rfl

end Extent

namespace Table

/-! ## Tables that are alike -/

/-- Tables that differ at most in the speed of their clocks and in what these take for fatal. -/
structure Agrees (a b : Table) : Prop where
  gameState : a.gameState = b.gameState
  schedule : a.schedule = b.schedule
  now : a.now = b.now
  former : a.clock.state.former = b.clock.state.former
  rules : a.rules = b.rules
  tally : a.tally = b.tally
  nextMessage : a.nextMessage = b.nextMessage

variable {a b c t : Table}

theorem Agrees.refl (a : Table) : Agrees a a := ⟨rfl, rfl, rfl, rfl, rfl, rfl, rfl⟩

theorem Agrees.symm (h : Agrees a b) : Agrees b a :=
  ⟨h.gameState.symm, h.schedule.symm, h.now.symm, h.former.symm, h.rules.symm, h.tally.symm,
    h.nextMessage.symm⟩

theorem Agrees.trans (h : Agrees a b) (k : Agrees b c) : Agrees a c :=
  ⟨h.gameState.trans k.gameState, h.schedule.trans k.schedule, h.now.trans k.now,
    h.former.trans k.former, h.rules.trans k.rules, h.tally.trans k.tally,
    h.nextMessage.trans k.nextMessage⟩

theorem agrees_setFatal (t : Table) (fatal : Bool) : Agrees (t.setFatal fatal) t :=
  ⟨rfl, rfl, rfl, rfl, rfl, rfl, rfl⟩

/-- A reset table is a fresh one. -/
theorem agrees_reset (t : Table) : Agrees t.reset (start t.rules) :=
  ⟨rfl, rfl, rfl, rfl, rfl, rfl, rfl⟩

/-- What else there is to a clock. -/
def withHints (t : Table) (speed : Binary64) (fatal : Bool) : Table :=
  { t with clock := ⟨{ t.clock.state with speed }, fatal⟩ }

theorem Agrees.eq_withHints (h : Agrees a b) :
    a = b.withHints a.clock.state.speed a.clock.fatal := by
  obtain ⟨gameState, schedule, ⟨⟨time, former, speed⟩, fatal⟩, rules, tally, nextMessage⟩ := a
  obtain ⟨rfl, rfl, rfl, rfl, rfl, rfl, rfl⟩ := h
  rfl

/-! ## What keeps them alike -/

theorem agrees_update (t : Table) (speed : Binary64) (fatal : Bool) (message : Nat)
    (version : Option Int) (patch : Patch) :
    Agrees ((t.withHints speed fatal).update message version patch).2.2
      (t.update message version patch).2.2 := by
  unfold update
  cases applied : t.gameState.apply version patch with
  | mk result gameState =>
    have same : (t.withHints speed fatal).gameState.apply version patch = (result, gameState) :=
      applied
    rw [same]
    cases result with
    | error e => exact ⟨rfl, rfl, rfl, rfl, rfl, rfl, rfl⟩
    | ok accepted => exact ⟨rfl, rfl, rfl, rfl, rfl, rfl, rfl⟩

theorem Agrees.update (h : Agrees a b) (message : Nat) (version : Option Int) (patch : Patch) :
    Agrees (a.update message version patch).2.2 (b.update message version patch).2.2 := by
  rw [h.eq_withHints]
  exact agrees_update ..

theorem agrees_tick (t : Table) (speed : Binary64) (fatal : Bool) (step : Tick) :
    Agrees ((t.withHints speed fatal).tick step).2.2 (t.tick step).2.2 := by
  unfold tick Clock.tick
  cases Clock.refusal? step.time step.former with
  | some e => exact ⟨rfl, rfl, rfl, rfl, rfl, rfl, rfl⟩
  | none => exact ⟨rfl, rfl, rfl, rfl, rfl, rfl, rfl⟩

theorem Agrees.tick (h : Agrees a b) (step : Tick) :
    Agrees (a.tick step).2.2 (b.tick step).2.2 := by
  rw [h.eq_withHints]
  exact agrees_tick ..

/-- A table that has counted one more message. -/
def counted (t : Table) : Table :=
  { t with
    nextMessage := t.nextMessage + 1
    tally := { t.tally with messages := t.tally.messages + 1 } }

theorem Agrees.counted (h : Agrees a b) : Agrees a.counted b.counted := by
  rw [h.eq_withHints]
  exact ⟨rfl, rfl, rfl, rfl, rfl, rfl, rfl⟩

theorem receive_gameState_table (t : Table) (u : Update) :
    (t.receive (.gameState u)).2.2 =
      (t.counted.update t.nextMessage u.version (patchOf u)).2.2 := rfl

theorem receive_tournament_table (t : Table) (u : Update) :
    (t.receive (.tournament u)).2.2 =
      (t.counted.update t.nextMessage u.version (.tournament u.payload)).2.2 := rfl

theorem receive_tick_table (t : Table) (step : Tick) :
    (t.receive (.tick step)).2.2 = (t.counted.tick step).2.2 := by
  unfold receive counted
  simp only
  split
  · rename_i done
    rw [done]
  · rename_i done
    rw [done]

/-- What a message does depends neither on the speed of the clock nor on what it takes for fatal. -/
theorem Agrees.receive (h : Agrees a b) (m : Message) :
    Agrees (a.receive m).2.2 (b.receive m).2.2 := by
  cases m with
  | gameState u =>
    rw [receive_gameState_table, receive_gameState_table, h.nextMessage]
    exact h.counted.update ..
  | tournament u =>
    rw [receive_tournament_table, receive_tournament_table, h.nextMessage]
    exact h.counted.update ..
  | tick step =>
    rw [receive_tick_table, receive_tick_table]
    exact h.counted.tick step
  | chat | notification | unrecognized =>
    rw [h.eq_withHints]
    exact ⟨rfl, rfl, rfl, rfl, rfl, rfl, rfl⟩

theorem Agrees.receiveAll (h : Agrees a b) (ms : List Message) :
    Agrees (a.receiveAll ms).2 (b.receiveAll ms).2 := by
  induction ms generalizing a b with
  | nil => exact h
  | cons m ms ih =>
    rw [receiveAll_cons, receiveAll_cons]
    exact ih (h.receive m)

theorem Agrees.landOn (h : Agrees a b) (target : Extent) {events others : List Event} :
    Agrees (landOn target (events, a)).2 (landOn target (others, b)).2 := by
  cases target with
  | whole | sequence => exact h
  | time limit =>
    unfold Table.landOn
    simp only [h.now]
    split
    · exact h.tick _
    · exact { h with former := h.now, now := rfl }

/-! ## Deliveries that nothing ends -/

/-- Takes messages in their order, until one ends the program. -/
def deliverAll (t : Table) : List Message → Except TickError Table
  | [] => .ok t
  | m :: ms =>
    match t.deliver m with
    | .ok (_, _, t') => t'.deliverAll ms
    | .error e => .error e

theorem update_clock (t : Table) (message : Nat) (version : Option Int) (patch : Patch) :
    (t.update message version patch).2.2.clock = t.clock := by
  unfold update
  cases t.gameState.apply version patch with
  | mk result gameState => cases result <;> rfl

theorem tick_fatal (t : Table) (step : Tick) :
    (t.tick step).2.2.clock.fatal = t.clock.fatal := by
  unfold tick Clock.tick
  cases Clock.refusal? step.time step.former <;> rfl

theorem receive_fatal (t : Table) (m : Message) :
    (t.receive m).2.2.clock.fatal = t.clock.fatal := by
  cases m with
  | gameState u => rw [receive_gameState_table, update_clock, counted]
  | tournament u => rw [receive_tournament_table, update_clock, counted]
  | tick step => rw [receive_tick_table, tick_fatal, counted]
  | chat | notification | unrecognized => rfl

theorem receiveAll_fatal (tolerant : t.clock.fatal = false) (ms : List Message) :
    (t.receiveAll ms).2.clock.fatal = false := by
  induction ms generalizing t with
  | nil => exact tolerant
  | cons m ms ih =>
    rw [receiveAll_cons]
    exact ih ((receive_fatal t m).trans tolerant)

/-- A table that takes nothing for fatal takes every message. -/
theorem deliver_of_tolerant (tolerant : t.clock.fatal = false) (m : Message) :
    t.deliver m = .ok (t.receive m) := by
  have goesOn : ∀ outcome, t.abort? outcome = none := by
    intro outcome
    cases outcome with
    | clockRejected e => simp [abort?, Clock.isFatal, tolerant]
    | applied | stale | ticked | ignored => rfl
  simp only [deliver, goesOn]

theorem deliverAll_of_tolerant (tolerant : t.clock.fatal = false) (ms : List Message) :
    t.deliverAll ms = .ok (t.receiveAll ms).2 := by
  induction ms generalizing t with
  | nil => rfl
  | cons m ms ih =>
    rw [deliverAll, deliver_of_tolerant tolerant, receiveAll_cons]
    exact ih ((receive_fatal t m).trans tolerant)

/-- Until a message ends the program, delivering is taking. -/
theorem eq_receiveAll_of_deliverAll {t' : Table} {ms : List Message}
    (delivered : t.deliverAll ms = .ok t') : t' = (t.receiveAll ms).2 := by
  induction ms generalizing t with
  | nil =>
    cases delivered
    rfl
  | cons m ms ih =>
    unfold deliverAll deliver at delivered
    cases ends : t.abort? (t.receive m).1 with
    | some e => simp [ends] at delivered
    | none =>
      simp only [ends] at delivered
      rw [ih delivered, receiveAll_cons]

/-! ## Replays -/

/-- A table comes out, and its summary too, as if some entries were delivered to a fresh table with
these rules that takes nothing for fatal: by number, and as they stand where they share one. -/
def IsFreshRun (rules : MotionRules) (entries : List Entry) (summary : Summary) (t : Table) :
    Prop :=
  ∃ ordered fresh, Recording.StableOrder entries ordered ∧
    ((start rules).setFatal false).deliverAll (ordered.map (·.message)) = .ok fresh ∧
    Agrees t fresh ∧ summary = summaryOf summary.target ordered fresh

variable (r : Recording) (target : Extent)

theorem Agrees.summaryOf_eq (h : Agrees a b) (played : List Entry) :
    summaryOf target played a = summaryOf target played b := by
  simp only [summaryOf, frame, frameAt, h.now, h.gameState, h.schedule]

/-- What a replay leaves depends on the rules and the recording only. -/
theorem agrees_replay (t : Table) :
    Agrees (t.replay r target).2.2
      (landOn target (((start t.rules).setFatal false).receiveAll
        ((target.entriesOf r).map (·.message)))).2 := by
  have fresh : Agrees (t.reset.setFatal false) ((start t.rules).setFatal false) :=
    ((agrees_setFatal _ false).trans (agrees_reset t)).trans (agrees_setFatal _ false).symm
  have run := fresh.receiveAll ((target.entriesOf r).map (·.message))
  exact (agrees_setFatal _ _).trans (run.landOn target)

variable {r target}

theorem isFreshRun_replay (t : Table) {entries : List Entry}
    (ordered : Recording.StableOrder entries (target.entriesOf r))
    (stays : ∀ s, landOn target s = s) :
    IsFreshRun t.rules entries (t.replay r target).1 (t.replay r target).2.2 := by
  have agrees := agrees_replay r target t
  rw [stays] at agrees
  exact ⟨target.entriesOf r, _, ordered, deliverAll_of_tolerant rfl _, agrees,
    agrees.summaryOf_eq target _⟩

/-- Replays of a recording to a target come to the same, whatever the tables have been through: the
same summary, and tables that are alike and draw alike. Each clock takes for fatal what it did
before. Where the replay does not land on a time, the entries up to the target are delivered to a
fresh table. -/
theorem replay_eq_of_rules_eq {a b : Table} (rules : a.rules = b.rules) (r : Recording)
    (target : Extent) :
    (a.replay r target).1 = (b.replay r target).1 ∧
      Agrees (a.replay r target).2.2 (b.replay r target).2.2 ∧
      (∀ time, (a.replay r target).2.2.frameAt time = (b.replay r target).2.2.frameAt time) ∧
      (a.replay r target).2.2.clock.fatal = a.clock.fatal ∧
      (b.replay r target).2.2.clock.fatal = b.clock.fatal ∧
      (target = .whole →
        IsFreshRun a.rules r.entries (a.replay r target).1 (a.replay r target).2.2) ∧
      ∀ limit, target = .sequence limit →
        IsFreshRun a.rules (r.entries.filter fun e => e.seq ≤ limit) (a.replay r target).1
          (a.replay r target).2.2 := by
  have first := agrees_replay r target a
  have second := agrees_replay r target b
  rw [← rules] at second
  have agrees := first.trans second.symm
  refine ⟨agrees.summaryOf_eq target _, agrees, fun time => ?_, rfl, rfl, ?_, ?_⟩
  · exact congrArg (·.frameAt time) agrees.schedule
  · rintro rfl
    apply isFreshRun_replay a _ fun _ => rfl
    rw [Extent.entriesOf_whole]
    exact Recording.stableOrder_inOrder r
  · rintro limit rfl
    apply isFreshRun_replay a _ fun _ => rfl
    rw [Extent.entriesOf_sequence]
    exact (Recording.stableOrder_inOrder r).filter fun seq => seq ≤ limit

/-- A fresh table and one that has been at another state and another time. The recording holds its
entries out of order, two share a number, and a tick goes backward. -/
theorem replay_eq_of_rules_eq_shuffled :
    let rules : MotionRules := { duration := 100, pruneGrace := 0 }
    let pot (n : Int) : Tree := .map [("pot", .amount (.ofInt n))]
    let a := start rules
    let b := (((start rules).receiveAll
      [.gameState ⟨some 9, .text "closed", false⟩, .tick ⟨500, 0, some 4⟩]).2).setFatal false
    let r : Recording := ⟨[⟨2, .gameState ⟨some 2, pot 20, false⟩⟩,
      ⟨1, .gameState ⟨some 1, pot 10, false⟩⟩, ⟨2, .tick ⟨50, 0, none⟩⟩,
      ⟨5, .gameState ⟨some 3, pot 30, false⟩⟩, ⟨3, .tick ⟨10, 50, none⟩⟩]⟩
    ((a.replay r (.sequence 3)).1 = (b.replay r (.sequence 3)).1 ∧
        Agrees (a.replay r (.sequence 3)).2.2 (b.replay r (.sequence 3)).2.2) ∧
      (b.replay r (.sequence 3)).1.lastSeq = some 3 ∧
      (b.replay r (.sequence 3)).2.2.frame.root = some (pot 15) ∧
      (a.replay r (.sequence 3)).2.2.clock.fatal = true ∧
      (b.replay r (.sequence 3)).2.2.clock.fatal = false := by
  intro rules pot a b r
  have same : a.rules = b.rules := by decide +kernel
  obtain ⟨summary, agrees, -, fatalA, fatalB, -, -⟩ := replay_eq_of_rules_eq same r (.sequence 3)
  have strict : a.clock.fatal = true := rfl
  have tolerant : b.clock.fatal = false := rfl
  have played : (Extent.sequence 3).entriesOf r =
      [⟨1, .gameState ⟨some 1, pot 10, false⟩⟩, ⟨2, .gameState ⟨some 2, pot 20, false⟩⟩,
        ⟨2, .tick ⟨50, 0, none⟩⟩, ⟨3, .tick ⟨10, 50, none⟩⟩] := by
    rw [Extent.entriesOf_sequence]
    cbv
  refine ⟨⟨summary, agrees⟩, ?_, ?_, fatalA.trans strict, fatalB.trans tolerant⟩
  · have last : (b.replay r (.sequence 3)).1.lastSeq =
        ((Extent.sequence 3).entriesOf r).getLast?.map (·.seq) := rfl
    rw [last, played]
    rfl
  · unfold replay
    rw [played]
    decide +kernel

end Table

end TableMotion
