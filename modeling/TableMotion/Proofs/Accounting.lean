import TableMotion.Proofs.Mirroring
import TableMotion.Proofs.Receiving
import TableMotion.Proofs.Settling

/-!
# What becomes of every message and every transition

Each message counts once: as taken, or under the reason for which it was rejected. Each transition
that was ever set under way is still in the schedule, or was interrupted, or was pruned, and counts
as one of these only (`Balanced`). The first state stays first through all of it (`InOrder`). A
pruning takes out just what is over and what lies under that (`prune_transitions_eq`).
-/

namespace TableMotion

namespace Schedule

open Transition

/-! ## What a pruning takes out -/

/-- Whether a pruning takes a transition out: it is over, or it lies under one that is. -/
def leavesAt (s : Schedule) (time : Binary64) (r : Transition) : Bool :=
  r.isOverBefore time || s.transitions.any fun g => g.isOverBefore time && isShadowedBy g r

theorem isShadowedBy_handDown (g x r : Transition) :
    isShadowedBy g (handDown x r) = isShadowedBy g r := by
  rw [Bool.eq_iff_iff, isShadowedBy_iff, isShadowedBy_iff, handDown_path, older_handDown_iff]

/-- Retiring transitions in turn takes out what lies under any of them. -/
theorem foldl_retire_eq_map (gone rs : List Transition) :
    gone.foldl retire rs =
      (rs.filter fun r => !gone.any (isShadowedBy · r)).map (handAllDown gone) := by
  induction gone generalizing rs with
  | nil =>
    have all : rs.filter (fun r => !List.any [] (isShadowedBy · r)) = rs :=
      List.filter_eq_self.2 fun r _ => rfl
    rw [all]
    exact (List.map_id rs).symm
  | cons g gone ih =>
    -- what is folded into a transition moves it neither in place nor in time
    have same : (fun r => !gone.any (isShadowedBy · r)) ∘ handDown g =
        fun r => !gone.any (isShadowedBy · r) := by
      funext r
      simp only [Function.comp_apply, isShadowedBy_handDown]
    rw [List.foldl_cons, ih, retire, dropShadowed, List.filter_map, List.map_map, same,
      List.filter_filter]
    congr 1
    apply List.filter_congr
    intro r _
    rw [List.any_cons, Bool.not_or, Bool.and_comm]

theorem prune_transitions_eq (s : Schedule) (time : Binary64) :
    (s.prune time).transitions =
      (s.transitions.filter fun r => !s.leavesAt time r).map
        (handAllDown (byPrecedence (s.transitions.filter (·.isOverBefore time)))) := by
  rw [prune_transitions_foldl, foldl_retire_eq_map, List.filter_filter]
  congr 1
  apply List.filter_congr
  intro r _
  rw [(byPrecedence_perm _).any_eq, List.any_filter, leavesAt, Bool.not_or, Bool.and_comm]

/-- A first state never leaves. -/
theorem not_leavesAt_of_isBase (s : Schedule) {b : Transition} (h : IsBase b) (time : Binary64) :
    s.leavesAt time b = false := by
  simp [leavesAt, isOverBefore, h.endless, isShadowedBy, Path.isAbove, h.atRoot, Path.root]

/-- Every transition of a schedule leaves in a pruning, or is left. -/
theorem length_prune (s : Schedule) (time : Binary64) :
    (s.prune time).transitions.length + s.transitions.countP (s.leavesAt time) =
      s.transitions.length := by
  rw [prune_transitions_eq, List.length_map, ← List.countP_eq_length_filter, Nat.add_comm]
  simpa using (List.length_eq_countP_add_countP (s.leavesAt time)).symm

/-- What retiring one more counts is what it takes out. -/
theorem retireCounting_balance (s : Nat × List Transition) (g : Transition) :
    (retireCounting s g).1 + (retireCounting s g).2.length = s.1 + s.2.length := by
  have fewer := List.length_filter_le (fun r => !isShadowedBy g r) s.2
  simp only [retireCounting, retire, dropShadowed, List.length_map]
  omega

/-- What is counted and what is left are as many all along. -/
theorem foldl_retireCounting_balance (gone : List Transition) (s : Nat × List Transition) :
    (gone.foldl retireCounting s).1 + (gone.foldl retireCounting s).2.length =
      s.1 + s.2.length := by
  induction gone generalizing s with
  | nil => rfl
  | cons g gone ih => rw [List.foldl_cons, ih, retireCounting_balance]

/-- The number that an eviction gives, with those that it leaves, makes up the schedule. -/
theorem evict_balance (s : Schedule) (time : Binary64) :
    (s.evict time).1 + (s.prune time).transitions.length = s.transitions.length := by
  have split : (s.transitions.filter (·.isOverBefore time)).length +
      (s.transitions.filter fun r => !r.isOverBefore time).length = s.transitions.length := by
    simpa [← List.countP_eq_length_filter] using
      (List.length_eq_countP_add_countP fun r : Transition => r.isOverBefore time).symm
  exact (foldl_retireCounting_balance ..).trans split

/-- An eviction gives the number of those that leave. -/
theorem evict_count (s : Schedule) (time : Binary64) :
    (s.evict time).1 = s.transitions.countP (s.leavesAt time) := by
  have counted := s.evict_balance time
  have split := s.length_prune time
  omega

theorem prune_pruned (s : Schedule) (time : Binary64) :
    (s.prune time).pruned = s.pruned + s.transitions.countP (s.leavesAt time) :=
  congrArg (s.pruned + ·) (s.evict_count time)

/-- Nothing is left that ended before the time of the pruning. -/
theorem not_endTime_lt_of_mem_prune {s : Schedule} {time : Binary64} {r : Transition}
    (h : r ∈ (s.prune time).transitions) : ¬ r.endTime < time := by
  rw [prune_transitions_eq] at h
  obtain ⟨x, hx, rfl⟩ := List.mem_map.1 h
  have stays := (List.mem_filter.1 hx).2
  rw [handAllDown_endTime]
  intro ended
  have finite : x.isEndless = false := by
    rw [isEndless, decide_eq_false_iff_not]
    intro endless
    rw [endless] at ended
    exact absurd (Binary64.isFinite_of_lt Binary64.zero_le_infinity ended) (by decide)
  simp [leavesAt, isOverBefore, finite, ended] at stays

/-! ## What every change of a schedule keeps -/

/-- The first state of a table stands first, as number 0. The transitions behind it are numbered in
their order and last finitely long. -/
structure InOrder (s : Schedule) : Prop where
  numbered : s.transitions.Pairwise fun a b => a.id < b.id
  fresh : ∀ r ∈ s.transitions, r.id < s.nextId
  based : ∃ b rest, s.transitions = b :: rest ∧ IsBase b ∧ b.id = 0 ∧
    ∀ r ∈ rest, r.duration.isFinite = true

/-- Of the first state and the changes that were inserted after it, each is in the schedule, was
interrupted or was pruned. -/
structure Balanced (s : Schedule) (inserted : Nat) : Prop extends InOrder s where
  balance : inserted + 1 = s.transitions.length + s.interrupted + s.pruned

variable {s s' : Schedule} {inserted : Nat}

/-- Transitions go, the first state apart, and others are folded into those that are left. -/
theorem InOrder.thin (h : s.InOrder) {keep : Transition → Bool} {gone : List Transition}
    (stays : ∀ b, IsBase b → keep b = true)
    (left : s'.transitions = (s.transitions.filter keep).map (handAllDown gone))
    (next : s'.nextId = s.nextId) : s'.InOrder where
  numbered := by
    rw [left]
    refine List.pairwise_map.2 ((h.numbered.filter keep).imp ?_)
    intro a b less
    rwa [handAllDown_id, handAllDown_id]
  fresh := by
    intro x hx
    rw [left] at hx
    obtain ⟨r, hr, rfl⟩ := List.mem_map.1 hx
    rw [handAllDown_id, next]
    exact h.fresh r (List.mem_filter.1 hr).1
  based := by
    obtain ⟨b, rest, split, base, first, lasting⟩ := h.based
    refine ⟨handAllDown gone b, (rest.filter keep).map (handAllDown gone), ?_,
      isBase_handAllDown base gone, ?_, ?_⟩
    · rw [left, split, List.filter_cons_of_pos (stays b base), List.map_cons]
    · rw [handAllDown_id, first]
    · intro x hx
      obtain ⟨r, hr, rfl⟩ := List.mem_map.1 hx
      rw [field_handAllDown handDown_duration]
      exact lasting r (List.mem_filter.1 hr).1

theorem balanced_startWith (state : Tree) (source : Option Nat) :
    (empty.startWith state source).Balanced 0 where
  numbered := List.pairwise_singleton ..
  fresh := by
    intro r hr
    rw [List.mem_singleton.1 hr]
    exact Nat.lt_succ_self 0
  based := ⟨_, [], rfl, ⟨rfl, decide_eq_true rfl, rfl, rfl⟩, rfl, List.forall_mem_nil _⟩
  balance := rfl

theorem Balanced.interrupt (h : s.Balanced inserted) (p : Path) (time : Binary64) :
    (s.interrupt p time).Balanced inserted where
  toInOrder := by
    refine h.thin ?_ (interrupt_transitions s p time) rfl
    intro b base
    rw [not_isCutAt_of_isEndless base.endless, Bool.not_false]
  balance := by
    have split : s.transitions.length = (s.transitions.filter (isCutAt p time)).length +
        (s.transitions.filter fun r => !isCutAt p time r).length := by
      simpa [← List.countP_eq_length_filter] using List.length_eq_countP_add_countP (isCutAt p time)
    have balance := h.balance
    rw [interrupt_transitions, List.length_map]
    show _ = _ + (s.interrupted + (s.transitions.filter (isCutAt p time)).length) + s.pruned
    omega

theorem Balanced.push (h : s.Balanced inserted) {r : Transition} (number : r.id = s.nextId)
    (lasting : r.duration.isFinite = true) : (s.push r).Balanced (inserted + 1) where
  numbered := by
    refine pairwise_push h.numbered fun a ha => ?_
    rw [number]
    exact h.fresh a ha
  fresh := fresh_push h.fresh number
  based := by
    obtain ⟨b, rest, split, base, first, each⟩ := h.based
    refine ⟨b, rest ++ [r], congrArg (· ++ [r]) split, base, first, ?_⟩
    intro x hx
    rcases List.mem_append.1 hx with old | new
    · exact each x old
    · rwa [List.mem_singleton.1 new]
  balance := by
    have balance := h.balance
    show _ = (s.transitions ++ [r]).length + s.interrupted + s.pruned
    rw [List.length_append, List.length_singleton]
    omega

theorem Balanced.insert (h : s.Balanced inserted) (c : Change) (time : Binary64) {timing : Timing}
    (finite : timing.duration.isFinite = true) (source : Option Nat) :
    (s.insert c time timing source).Balanced (inserted + 1) := by
  have lasting : (s.opened c time timing source).duration.isFinite = true :=
    cleanDuration_isFinite finite
  have left := holds_cleared (P := fun left => left.Balanced inserted) h
    (h.interrupt c.path time) timing.joining
  rw [insert_eq_push]
  exact left.push (cleared_nextId ..).symm lasting

theorem Balanced.insertAll (h : s.Balanced inserted) {rules : MotionRules} (finite : rules.Finite)
    (time : Binary64) (source : Option Nat) (cs : List Change) :
    (cs.foldl (fun s c => s.insert c time (rules.timingOf c) source) s).Balanced
      (inserted + cs.length) := by
  induction cs generalizing s inserted with
  | nil => exact h
  | cons c cs ih =>
    have next := ih (h.insert c time (finite.timingOf c) source)
    rwa [Nat.add_right_comm] at next

theorem Balanced.prune (h : s.Balanced inserted) (time : Binary64) :
    (s.prune time).Balanced inserted where
  toInOrder := by
    refine h.thin ?_ (prune_transitions_eq s time) rfl
    intro b base
    rw [not_leavesAt_of_isBase s base, Bool.not_false]
  balance := by
    have split := s.length_prune time
    have balance := h.balance
    rw [prune_pruned]
    show _ = _ + s.interrupted + _
    omega

theorem prune_empty (time : Binary64) : empty.prune time = empty := by
  simp [prune, evict, empty, byPrecedence]

end Schedule

/-! ## The counters -/

namespace Table

open Schedule

/-- The counters of a table tell what became of every message and of every transition. -/
structure Accounts (t : Table) : Prop where
  messages : t.tally.messages = t.tally.accepted + t.tally.staleDropped + t.tally.ignored +
    t.tally.ticks + t.tally.clockRejections
  accepted : t.gameState.accepted = t.tally.accepted
  dropped : t.gameState.dropped = t.tally.staleDropped
  depth : t.tally.queueDepth = t.schedule.transitions.length
  interrupted : t.tally.interrupted = t.schedule.interrupted
  pruned : t.tally.pruned = t.schedule.pruned
  finite : t.rules.Finite
  loaded : t.gameState.loaded = true ↔ 0 < t.gameState.accepted
  waiting : t.gameState.loaded = false → t.schedule = Schedule.empty ∧ t.tally.enqueued = 0
  balanced : t.gameState.loaded = true → t.schedule.Balanced t.tally.enqueued

theorem accounts_start {rules : MotionRules} (finite : rules.Finite) (fatal : Bool) :
    ((start rules).setFatal fatal).Accounts where
  messages := rfl
  accepted := rfl
  dropped := rfl
  depth := rfl
  interrupted := rfl
  pruned := rfl
  finite := finite
  loaded := by simp [setFatal, start, GameState.empty]
  waiting _ := ⟨rfl, rfl⟩
  balanced := nofun

variable {t : Table}

theorem Accounts.noting (h : t.Accounts) {outcome : Outcome}
    (rejects : outcome.isRejection = true) : (t.noting outcome).Accounts := by
  have messages := h.messages
  have dropped := h.dropped
  cases outcome with
  | stale | clockRejected | ignored =>
    refine { h with messages := ?_, dropped := ?_ }
    · simp only [Table.noting, Tally.noting]
      omega
    · simp only [Table.noting, Tally.noting, GameState.noting]
      omega
  | applied | ticked => cases rejects

theorem Accounts.taking (h : t.Accounts) {u : Revision}
    (fresh : t.gameState.stale? u.version u.patch = none) : (t.taking u).Accounts := by
  obtain ⟨loaded, accepted, dropped⟩ := GameState.revise_of_fresh fresh
  have balanced : (t.scheduleWith u).Balanced (t.tally.enqueued + (t.changesOf u).length) := by
    unfold scheduleWith
    cases before : t.gameState.loaded with
    | true => exact (h.balanced before).insertAll h.finite t.now (some t.nextMessage) _
    | false =>
      obtain ⟨nothing, notYet⟩ := h.waiting before
      have unchanged : t.changesOf u = [] := by
        rw [changesOf, before]
        rfl
      rw [nothing, notYet, unchanged]
      exact balanced_startWith ..
  constructor
  case messages =>
    have messages := h.messages
    simp only [Table.taking, countSchedule, counted]
    omega
  case accepted =>
    show (t.gameState.revise u).accepted = t.tally.accepted + 1
    rw [accepted, h.accepted]
  case dropped =>
    show (t.gameState.revise u).dropped = t.tally.staleDropped
    rw [dropped, h.dropped]
  case depth | interrupted | pruned => rfl
  case finite => exact h.finite
  case loaded =>
    show (t.gameState.revise u).loaded = true ↔ 0 < (t.gameState.revise u).accepted
    rw [loaded, accepted]
    exact ⟨fun _ => Nat.succ_pos _, fun _ => rfl⟩
  case waiting =>
    intro before
    cases loaded.symm.trans before
  case balanced => exact fun _ => balanced

theorem Accounts.moving (h : t.Accounts) (step : Tick) : (t.moving step).Accounts where
  messages := by
    have messages := h.messages
    simp only [Table.moving, countSchedule, counted]
    omega
  accepted := h.accepted
  dropped := h.dropped
  depth := rfl
  interrupted := rfl
  pruned := rfl
  finite := h.finite
  loaded := h.loaded
  waiting before := by
    obtain ⟨nothing, notYet⟩ := h.waiting before
    refine ⟨?_, notYet⟩
    show t.schedule.prune _ = Schedule.empty
    rw [nothing, prune_empty]
  balanced before := (h.balanced before).prune _

/-- Whatever a message does, the counters tell it. -/
theorem Accounts.leaves (h : t.Accounts) {m : Message} {outcome : Outcome} {t' : Table}
    (leaves : Leaves t m outcome t') : t'.Accounts := by
  cases leaves with
  | noting rejects => exact h.noting rejects
  | taking _ fresh => exact h.taking fresh
  | moving => exact h.moving _

theorem Accounts.receiveAll (h : t.Accounts) (ms : List Message) :
    (t.receiveAll ms).2.Accounts := by
  induction ms generalizing t with
  | nil => exact h
  | cons m ms ih =>
    rw [receiveAll_cons]
    exact ih (h.leaves (leaves_receive t m))

theorem messages_noting (t : Table) {outcome : Outcome} (rejects : outcome.isRejection = true) :
    (t.noting outcome).tally.messages = t.tally.messages + 1 := by
  cases outcome with
  | stale | clockRejected | ignored => rfl
  | applied | ticked => cases rejects

theorem messages_leaves {m : Message} {outcome : Outcome} {t' : Table}
    (leaves : Leaves t m outcome t') : t'.tally.messages = t.tally.messages + 1 := by
  cases leaves with
  | noting rejects => exact messages_noting t rejects
  | taking | moving => rfl

theorem messages_receiveAll (t : Table) (ms : List Message) :
    (t.receiveAll ms).2.tally.messages = t.tally.messages + ms.length := by
  induction ms generalizing t with
  | nil => rfl
  | cons m ms ih =>
    rw [receiveAll_cons, ih, messages_leaves (leaves_receive t m), List.length_cons]
    omega

/-- A pruning says how many transitions leave. -/
theorem prune_count (t : Table) (time : Binary64) :
    (t.prune time).1 = t.schedule.transitions.countP (t.schedule.leavesAt time) :=
  t.schedule.evict_count time

/-- Every message and every transition is accounted for once. After any messages to a fresh table
that takes nothing for fatal, each message was taken as an update or a tick, or rejected for one
reason. If no update was taken the schedule is empty. Else the first state and every change inserted
after it is in the schedule, was interrupted or was pruned; the first state is the first transition,
and the only one without an end. At any time a pruning takes out what is over and what lies under
that, and says how many these are. -/
theorem accounts_deliverAll {rules : MotionRules} (finite : rules.Finite) (ms : List Message)
    (ends : ∀ r ∈ (((start rules).setFatal false).receiveAll ms).2.schedule.transitions,
      r.duration.isFinite = true → r.endTime.isFinite = true) :
    ∃ t, ((start rules).setFatal false).deliverAll ms = .ok t ∧
      (t.tally.messages = ms.length ∧
        t.tally.messages = t.tally.accepted + t.tally.staleDropped + t.tally.ignored +
          t.tally.ticks + t.tally.clockRejections ∧
        t.gameState.accepted = t.tally.accepted ∧ t.gameState.dropped = t.tally.staleDropped) ∧
      t.tally.queueDepth = t.schedule.transitions.length ∧
      (t.tally.accepted = 0 → t.schedule.transitions = []) ∧
      (0 < t.tally.accepted →
        t.tally.enqueued + 1 = t.tally.queueDepth + t.tally.interrupted + t.tally.pruned ∧
          ∃ b rest, t.schedule.transitions = b :: rest ∧ IsBase b ∧ b.id = 0 ∧
            ∀ r ∈ rest, r.endTime.isFinite = true) ∧
      (t.schedule.transitions.Pairwise fun a b => a.id < b.id) ∧
      ∀ time,
        let left := (t.prune time).2.2.schedule.transitions
        (t.prune time).1 = t.schedule.transitions.countP (t.schedule.leavesAt time) ∧
        (t.prune time).1 + left.length = t.schedule.transitions.length ∧
        left.map (·.id) =
          (t.schedule.transitions.filter fun r => !t.schedule.leavesAt time r).map (·.id) ∧
        ∀ r ∈ left, ¬ r.endTime < time := by
  have accounts := (accounts_start finite false).receiveAll ms
  have counted := messages_receiveAll ((start rules).setFatal false) ms
  refine ⟨(((start rules).setFatal false).receiveAll ms).2, deliverAll_of_tolerant rfl ms, ?_⟩
  generalize (((start rules).setFatal false).receiveAll ms).2 = t at ends accounts counted
  have loaded : t.gameState.loaded = true ↔ 0 < t.tally.accepted := by
    rw [accounts.loaded, accounts.accepted]
  have numbered : t.schedule.transitions.Pairwise fun a b => a.id < b.id := by
    cases before : t.gameState.loaded with
    | true => exact (accounts.balanced before).numbered
    | false =>
      rw [(accounts.waiting before).1]
      exact List.Pairwise.nil
  refine ⟨⟨?_, accounts.messages, accounts.accepted, accounts.dropped⟩, accounts.depth, ?_, ?_,
    numbered, fun time => ⟨prune_count t time, ?_, ?_, ?_⟩⟩
  · rw [counted, setFatal, start, Nat.zero_add]
  · intro untaken
    have before : t.gameState.loaded = false := by
      rw [← Bool.not_eq_true, loaded, untaken]
      exact Nat.lt_irrefl 0
    rw [(accounts.waiting before).1]
    rfl
  · intro taken
    have balanced := accounts.balanced (loaded.2 taken)
    obtain ⟨b, rest, split, base, first, lasting⟩ := balanced.based
    rw [accounts.depth, accounts.interrupted, accounts.pruned]
    -- behind the first state all last finitely long, so they end
    refine ⟨balanced.balance, b, rest, split, base, first, fun r hr => ends r ?_ (lasting r hr)⟩
    rw [split]
    exact List.mem_cons_of_mem b hr
  · rw [prune_count, Nat.add_comm]
    exact t.schedule.length_prune time
  · show (t.schedule.prune time).transitions.map (·.id) = _
    rw [prune_transitions_eq, List.map_map]
    exact List.map_congr_left fun r _ => handAllDown_id _ r
  · exact fun r hr => not_endTime_lt_of_mem_prune hr

/-- A pot that changes twice, a seat that is cleared while the name in it changes, and a tick that
prunes the seat and with it the name. -/
theorem accounts_deliverAll_cleared_seat :
    let rules : MotionRules :=
      { duration := 500, pruneGrace := 0
        rules := [⟨⟨["seat"], false⟩, some 30, none, none, none, none⟩] }
    let state (pot : Int) (seat : Tree) : Tree :=
      .map [("pot", .amount (.ofInt pot)), ("seat", seat)]
    let name (n : String) : Tree := .map [("name", .text n)]
    let ms : List Message := [
      .gameState ⟨some 1, state 0 (name "ada"), false⟩,
      .gameState ⟨some 2, state 10 (name "bob"), false⟩, .gameState ⟨some 2, .null, false⟩,
      .gameState ⟨some 3, state 20 (name "bob"), false⟩, .chat .null,
      .gameState ⟨none, state 20 (.text "free"), false⟩, .tick ⟨50, 0, none⟩,
      .tick ⟨10, 50, none⟩, .tournament ⟨some 1, .text "final", false⟩]
    ∃ t, ((start rules).setFatal false).deliverAll ms = .ok t ∧
      t.tally =
        { messages := 9, accepted := 5, staleDropped := 1, ignored := 1, ticks := 1
          clockRejections := 1, enqueued := 5, interrupted := 1, pruned := 2, queueDepth := 3 } ∧
      t.tally.enqueued + 1 = t.tally.queueDepth + t.tally.interrupted + t.tally.pruned ∧
      (t.prune 520).1 = 1 := by
  intro rules state name ms
  have finite : rules.Finite := ⟨by decide +kernel, by decide +kernel⟩
  have ends : ∀ r ∈ (((start rules).setFatal false).receiveAll ms).2.schedule.transitions,
      r.duration.isFinite = true → r.endTime.isFinite = true := by decide +kernel
  obtain ⟨t, delivered, -, -, -, balance, -⟩ := accounts_deliverAll finite ms ends
  have same : t = (((start rules).setFatal false).receiveAll ms).2 :=
    Except.ok.inj (delivered.symm.trans (deliverAll_of_tolerant rfl ms))
  have taken : 0 < t.tally.accepted := by
    rw [same]
    decide +kernel
  refine ⟨t, delivered, ?_, (balance taken).1, ?_⟩
  · rw [same]
    decide +kernel
  · rw [same]
    decide +kernel

end Table

end TableMotion
