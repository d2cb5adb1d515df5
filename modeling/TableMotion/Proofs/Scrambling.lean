import Mathlib.Data.List.Induction
import TableMotion.Proofs.Accounting

/-!
# Snapshots in any order

Snapshots of a game that reach a fresh table, in any order and any number of times, leave it with
the newest of them (`isNewest_gather`): the version that a table has reached is at every point the
greatest that was sent. So two orders leave one state. They leave different schedules, but these
lead to that state, and show it once their transitions are over (`root_frameAt_gather`).
-/

namespace TableMotion

open TableMotion.Tree

/-- A snapshot of a game with its version. -/
structure Snapshot where
  version : Int
  state : Tree
  isGame : state.IsGameMap
deriving DecidableEq

namespace Snapshot

/-- The message that brings a snapshot. -/
def message (s : Snapshot) : Message := .gameState ⟨some s.version, s.state, false⟩

/-- The update of the state that a snapshot is. -/
def revision (s : Snapshot) : Revision := ⟨some s.version, .replace s.state⟩

theorem revision?_message (s : Snapshot) : s.message.revision? = some s.revision := rfl

/-- Snapshots of one version hold one state. -/
def Consistent (ss : List Snapshot) : Prop :=
  ∀ a ∈ ss, ∀ b ∈ ss, a.version = b.version → a.state = b.state

theorem Consistent.of_subset {ss ss' : List Snapshot} (h : Consistent ss) (sub : ss' ⊆ ss) :
    Consistent ss' := fun a ha b hb => h a (sub ha) b (sub hb)

/-- The greatest version of some snapshots. -/
def newestVersion (ss : List Snapshot) : Option Int := (ss.map (·.version)).max?

variable {ss : List Snapshot} {v : Int}

theorem newestVersion_eq_some_iff : newestVersion ss = some v ↔
    (∃ s ∈ ss, s.version = v) ∧ ∀ s ∈ ss, s.version ≤ v := by
  rw [newestVersion, List.max?_eq_some_iff]
  simp

theorem newestVersion_perm {ss ss' : List Snapshot} (p : ss'.Perm ss) :
    newestVersion ss' = newestVersion ss := by
  ext v
  simp only [newestVersion_eq_some_iff, p.mem_iff]

end Snapshot

namespace GameState

open Snapshot

/-- A state that some snapshots have led to from the beginning: it is the newest of them, and each
of them is counted. -/
structure IsNewest (ss : List Snapshot) (g : GameState) : Prop where
  version : g.version = newestVersion ss
  tree : ∀ s ∈ ss, g.version = some s.version → g.tree = s.state
  counts : g.accepted + g.dropped = ss.length
  loaded : ss ≠ [] → g.loaded = true
  game : g.tree.IsGameTree

theorem isNewest_empty : IsNewest [] empty :=
  ⟨rfl, List.forall_mem_nil _, rfl, fun something => absurd rfl something, Or.inl rfl⟩

variable {ss : List Snapshot} {s : Snapshot} {g : GameState}

theorem IsNewest.exists_top (h : IsNewest ss g) (something : ss ≠ []) :
    ∃ top ∈ ss, g.version = some top.version ∧ ∀ x ∈ ss, x.version ≤ top.version := by
  have version := h.version
  cases reached : g.version with
  | none =>
    rw [reached, newestVersion, eq_comm, List.max?_eq_none_iff, List.map_eq_nil_iff] at version
    exact absurd version something
  | some v =>
    rw [reached, eq_comm, newestVersion_eq_some_iff] at version
    obtain ⟨⟨top, member, rfl⟩, greatest⟩ := version
    exact ⟨top, member, rfl, greatest⟩

/-- A snapshot is taken if it is newer than all before it. -/
theorem IsNewest.stale?_eq_none_iff (h : IsNewest ss g) :
    g.stale? s.revision.version s.revision.patch = none ↔ ∀ b ∈ ss, b.version < s.version := by
  by_cases nothing : ss = []
  · subst nothing
    have blank : g.version = none := h.version
    simp [stale?, revision, streamVersion, Patch.isTournament, blank]
  · obtain ⟨top, member, reached, greatest⟩ := h.exists_top nothing
    have fresh : g.stale? s.revision.version s.revision.patch = none ↔
        top.version < s.version := by
      simp [stale?, revision, streamVersion, Patch.isTournament, reached]
    rw [fresh]
    exact ⟨fun less b hb => Int.lt_of_le_of_lt (greatest b hb) less, fun all => all top member⟩

/-- A snapshot that is taken replaces the whole state. -/
theorem revise_snapshot (game : g.tree.IsGameTree)
    (fresh : g.stale? s.revision.version s.revision.patch = none) :
    g.revise s.revision = { g with
      tree := s.state, version := some s.version, loaded := true, accepted := g.accepted + 1 } := by
  obtain ⟨fields, isMap, -, absent⟩ := s.isGame.exists_fields
  have whole : (Patch.replace s.state).applyTo g.tree = s.state := by
    rw [Patch.applyTo, isMap, Patch.keepTournament_of_absent (Patch.get?_of_isGameTree game)]
  rw [revise, apply, fresh]
  simp [revision, Patch.isTournament, whole]

theorem IsNewest.take (h : IsNewest ss g) (consistent : Consistent (ss ++ [s]))
    (newer : ∀ b ∈ ss, b.version < s.version) :
    IsNewest (ss ++ [s]) { g with
      tree := s.state, version := some s.version, loaded := true, accepted := g.accepted + 1 } where
  version := by
    refine (newestVersion_eq_some_iff.2 ⟨⟨s, by simp, rfl⟩, fun x hx => ?_⟩).symm
    rcases List.mem_append.1 hx with old | new
    · exact Int.le_of_lt (newer x old)
    · exact Int.le_of_eq (by rw [List.mem_singleton.1 new])
  tree x hx same := consistent s (by simp) x hx (Option.some.inj same)
  counts := by
    have counts := h.counts
    rw [List.length_append, List.length_singleton]
    show g.accepted + 1 + g.dropped = _
    omega
  loaded _ := rfl
  game := Or.inr s.isGame

/-- A snapshot that is dropped is not newer than the newest one; of the same version it holds the
same state. -/
theorem IsNewest.drop (h : IsNewest ss g) (consistent : Consistent (ss ++ [s]))
    (older : ∃ b ∈ ss, s.version ≤ b.version) :
    IsNewest (ss ++ [s]) { g with dropped := g.dropped + 1 } := by
  obtain ⟨b, hb, le⟩ := older
  have something : ss ≠ [] := List.ne_nil_of_mem hb
  obtain ⟨top, member, reached, greatest⟩ := h.exists_top something
  refine ⟨?_, ?_, ?_, fun _ => h.loaded something, h.game⟩
  · refine reached.trans (newestVersion_eq_some_iff.2
      ⟨⟨top, List.mem_append_left _ member, rfl⟩, fun x hx => ?_⟩).symm
    rcases List.mem_append.1 hx with old | new
    · exact greatest x old
    · rw [List.mem_singleton.1 new]
      exact Int.le_trans le (greatest b hb)
  · intro x hx same
    have level : top.version = x.version := Option.some.inj (reached.symm.trans same)
    exact (h.tree top member reached).trans
      (consistent top (List.mem_append_left _ member) x hx level)
  · have counts := h.counts
    rw [List.length_append, List.length_singleton]
    show g.accepted + (g.dropped + 1) = _
    omega

theorem IsNewest.revise (h : IsNewest ss g) (consistent : Consistent (ss ++ [s])) :
    IsNewest (ss ++ [s]) (g.revise s.revision) := by
  cases stale : g.stale? s.revision.version s.revision.patch with
  | none =>
    rw [revise_snapshot h.game stale]
    exact h.take consistent (h.stale?_eq_none_iff.1 stale)
  | some e =>
    have dropped : g.revise s.revision = { g with dropped := g.dropped + 1 } := by
      rw [GameState.revise, apply, stale]
    have rejected : g.stale? s.revision.version s.revision.patch ≠ none := by simp [stale]
    rw [dropped]
    exact h.drop consistent (by simpa using mt h.stale?_eq_none_iff.2 rejected)

end GameState

/-! ## Schedules of a clock that stands at zero -/

namespace Schedule

open Transition

/-- Every transition starts at zero, and ends if it lasts finitely long. -/
def Launched (s : Schedule) : Prop :=
  ∀ r ∈ s.transitions, r.startTime = 0 ∧ (r.duration.isFinite = true → r.endTime.isFinite = true)

variable {s : Schedule} {time : Binary64} {state : Tree}

theorem Launched.startWith (h : s.Launched) (state : Tree) (source : Option Nat) :
    (s.startWith state source).Launched := by
  intro r hr
  rcases List.mem_append.1 hr with old | new
  · exact h r old
  · rw [List.mem_singleton.1 new]
    exact ⟨rfl, nofun⟩

theorem Launched.insert (h : s.Launched) (c : Change) {timing : Timing}
    (override : timing.joining = .override) (finite : timing.duration.isFinite = true)
    (source : Option Nat) : (s.insert c 0 timing source).Launched := by
  rw [insert_of_override s c 0 source override]
  intro r hr
  rcases List.mem_append.1 hr with kept | new
  · refine forall_interrupt (fun g _ r hr => ?_) h c.path 0 r kept
    rwa [handDown_startTime, handDown_duration, handDown_endTime]
  · rw [List.mem_singleton.1 new, opened_startTime s c 0 source override,
      opened_endTime s c 0 source override]
    exact ⟨rfl, fun _ => Binary64.isFinite_zero_add (cleanDuration_isFinite finite)
      (cleanDuration_nonneg timing.duration)⟩

theorem Launched.insertAll (h : s.Launched) {rules : MotionRules}
    (interrupting : rules.Interrupting) (cs : List Change) (source : Option Nat) :
    (cs.foldl (fun s c => s.insert c 0 (rules.timingOf c) source) s).Launched := by
  induction cs generalizing s with
  | nil => exact h
  | cons c cs ih =>
    obtain ⟨override, finite⟩ := interrupting.timingOf c
    exact ih (h.insert c override finite source)

/-- A first state by itself is drawn at any time. -/
theorem root_frameAt_of_singleton {b : Transition} (base : IsBase b)
    (only : s.transitions = [b]) (time : Binary64) : (s.frameAt time).root = b.finish := by
  rw [frameAt, only, ← valueAt_of_eq base.same time]
  simp [Frame.ofTransitions, Frame.winners, Frame.addWinner, Frame.isHidden, Frame.draw,
    Frame.empty, Path.isAbove, base.atRoot, Path.root]

/-- A schedule that leads to a state draws it once its transitions are over: those that are not the
first state end after zero. -/
theorem Tracks.root_frameAt_launched {inserted : Nat} (h : s.Tracks 0 state)
    (balanced : s.Balanced inserted) (launched : s.Launched) (ended : IsOverBy s.transitions time) :
    (s.frameAt time).root = some state := by
  obtain ⟨b, rest, split, base, -, lasting⟩ := balanced.based
  cases rest with
  | nil =>
    have written := h.written
    rw [split, writeAll_cons, writeAll_nil, base.atRoot] at written
    rw [root_frameAt_of_singleton base split time]
    exact (putBelow_root none b.finish).symm.trans written
  | cons r rest =>
    have member : r ∈ s.transitions := by
      rw [split]
      exact List.mem_cons_of_mem b List.mem_cons_self
    obtain ⟨start, ends⟩ := launched r member
    have past := ended r member (ends (lasting r List.mem_cons_self))
    have forward := (h.sound.sound r member).forward
    rw [start] at forward
    exact h.root_frameAt ⟨fun x hx => (launched x hx).2, ended⟩
      (Binary64.le_trans forward (Binary64.le_of_lt past))

end Schedule

/-! ## The table -/

namespace Table

open Schedule Snapshot

variable {rules : MotionRules} {ss : List Snapshot} {s : Snapshot} {t t' : Table}

/-- A fresh table after some snapshots. -/
def gather (rules : MotionRules) (ss : List Snapshot) : Table :=
  ((start rules).receiveAll (ss.map message)).2

theorem gather_snoc (rules : MotionRules) (ss : List Snapshot) (s : Snapshot) :
    gather rules (ss ++ [s]) = ((gather rules ss).receive s.message).2.2 := by
  rw [gather, List.map_append, List.map_singleton, receiveAll_snoc]
  rfl

theorem deliverAll_snapshots (t : Table) (ss : List Snapshot) :
    t.deliverAll (ss.map message) = .ok (t.receiveAll (ss.map message)).2 := by
  induction ss generalizing t with
  | nil => rfl
  | cons s ss ih =>
    rw [List.map_cons, deliverAll, deliver_of_revision s.revision?_message, receiveAll_cons]
    exact ih _

/-- Snapshots leave the newest of them. -/
theorem isNewest_gather (rules : MotionRules) (consistent : Consistent ss) :
    (gather rules ss).gameState.IsNewest ss := by
  induction ss using List.reverseRecOn with
  | nil => exact GameState.isNewest_empty
  | append_singleton ss s ih =>
    rw [gather_snoc, gameState_receive s.revision?_message]
    exact (ih (consistent.of_subset (List.subset_append_left ..))).revise consistent

/-- A snapshot is taken if it is newer than all before it. -/
theorem applied_iff (consistent : Consistent ss) :
    (∃ changes, ((gather rules ss).receive s.message).1 = .applied (some s.version) changes) ↔
      ∀ b ∈ ss, b.version < s.version := by
  rw [← (isNewest_gather rules consistent).stale?_eq_none_iff, receive_update s.revision?_message]
  cases stale : (gather rules ss).gameState.stale? s.revision.version s.revision.patch with
  | some e => simp
  | none => exact ⟨fun _ => rfl, fun _ => ⟨_, rfl⟩⟩

/-- What snapshots without lists leave of a fresh table whose changes interrupt each other. -/
structure Gathered (t : Table) : Prop where
  follows : t.Follows
  accounts : t.Accounts
  atZero : t.now = 0
  launched : t.schedule.Launched

theorem gathered_start (interrupting : rules.Interrupting) : (start rules).Gathered where
  follows := follows_start interrupting
  accounts :=
    accounts_start ⟨interrupting.finite, interrupting.finiteRules⟩ (start rules).clock.fatal
  atZero := rfl
  launched := List.forall_mem_nil _

theorem Gathered.launched_receive (h : t.Gathered) (s : Snapshot) :
    (t.receive s.message).2.2.schedule.Launched := by
  rw [receive_update s.revision?_message]
  cases t.gameState.stale? s.revision.version s.revision.patch with
  | some e => exact h.launched
  | none =>
    show (t.scheduleWith s.revision).Launched
    unfold scheduleWith
    split
    · rw [insertAll, h.atZero]
      exact h.launched.insertAll h.follows.interrupting _ _
    · exact Schedule.Launched.startWith h.launched _ _

theorem Gathered.receive (h : t.Gathered) {s : Snapshot} (plain : s.state.Plain) :
    (t.receive s.message).2.2.Gathered where
  follows := h.follows.move (m := s.message) plain trivial (move_receive t s.message)
  accounts := h.accounts.leaves (leaves_receive t s.message)
  atZero := by
    rw [receive_update s.revision?_message]
    cases t.gameState.stale? s.revision.version s.revision.patch <;> exact h.atZero
  launched := h.launched_receive s

theorem gathered_gather (interrupting : rules.Interrupting) (plain : ∀ s ∈ ss, s.state.Plain) :
    (gather rules ss).Gathered := by
  induction ss using List.reverseRecOn with
  | nil => exact gathered_start interrupting
  | append_singleton ss s ih =>
    rw [gather_snoc]
    exact (ih fun x hx => plain x (List.mem_append_left _ hx)).receive (plain s (by simp))

/-- The newest snapshot is drawn once all transitions are over. -/
theorem root_frameAt_gather (interrupting : rules.Interrupting) (plain : ∀ s ∈ ss, s.state.Plain)
    (consistent : Consistent ss) (something : ss ≠ []) {time : Binary64}
    (ended : IsOverBy (gather rules ss).schedule.transitions time) :
    ((gather rules ss).frameAt time).root = some (gather rules ss).gameState.tree := by
  have gathered := gathered_gather interrupting plain
  have loaded := (isNewest_gather rules consistent).loaded something
  have tracks := gathered.follows.tracks loaded
  rw [gathered.atZero] at tracks
  exact tracks.root_frameAt_launched (gathered.accounts.balanced loaded) gathered.launched ended

/-- Snapshots of one version that hold one state can reach a fresh table in any order. In each, a
snapshot is taken exactly if it is newer than all before it; in the end the table has reached the
greatest version and holds its state, and each snapshot is counted once. So all orders end in one
version and one state. If changes interrupt each other, and no state holds a list, they draw one
tree at every time at which the transitions of both are over. -/
theorem gather_perm (rules : MotionRules) {ss ss' : List Snapshot} (consistent : Consistent ss)
    (p : ss'.Perm ss) :
    (start rules).deliverAll (ss'.map message) = .ok (gather rules ss') ∧
      (∀ before s after, ss' = before ++ s :: after →
        ((∃ changes,
            ((gather rules before).receive s.message).1 = .applied (some s.version) changes) ↔
          ∀ b ∈ before, b.version < s.version)) ∧
      ((gather rules ss').gameState.version = (ss.map (·.version)).max? ∧
        (∀ s ∈ ss, (ss.map (·.version)).max? = some s.version →
          (gather rules ss').gameState.tree = s.state) ∧
        (gather rules ss').gameState.accepted + (gather rules ss').gameState.dropped =
          ss.length) ∧
      ((gather rules ss').gameState.version = (gather rules ss).gameState.version ∧
        (gather rules ss').gameState.tree = (gather rules ss).gameState.tree) ∧
      (rules.Interrupting → (∀ s ∈ ss, s.state.Plain) → ∀ time,
        IsOverBy (gather rules ss').schedule.transitions time →
        IsOverBy (gather rules ss).schedule.transitions time →
        ((gather rules ss').frameAt time).root = ((gather rules ss).frameAt time).root) := by
  have consistent' : Consistent ss' := consistent.of_subset p.subset
  have newest := isNewest_gather rules consistent
  have newest' := isNewest_gather rules consistent'
  have version : (gather rules ss').gameState.version = newestVersion ss :=
    newest'.version.trans (newestVersion_perm p)
  have tree : (gather rules ss').gameState.tree = (gather rules ss).gameState.tree := by
    by_cases nothing : ss = []
    · subst nothing
      rw [p.eq_nil]
    · obtain ⟨top, member, reached, -⟩ := newest.exists_top nothing
      rw [newest.tree top member reached, newest'.tree top (p.mem_iff.2 member)]
      rw [version, ← newest.version, reached]
  refine ⟨deliverAll_snapshots _ ss', ?_, ⟨version, ?_, ?_⟩, ⟨?_, tree⟩, ?_⟩
  · intro before s after split
    refine applied_iff (consistent'.of_subset ?_)
    rw [split]
    exact List.subset_append_left ..
  · intro s hs greatest
    exact newest'.tree s (p.mem_iff.2 hs) (version.trans greatest)
  · rw [newest'.counts, p.length_eq]
  · rw [version, newest.version]
  · intro interrupting plain time ended' ended
    by_cases nothing : ss = []
    · subst nothing
      rw [p.eq_nil]
    · have something' : ss' ≠ [] := fun empty => nothing (p.symm.trans (by rw [empty])).eq_nil
      rw [root_frameAt_gather interrupting plain consistent nothing ended,
        root_frameAt_gather interrupting (fun s hs => plain s (p.mem_iff.1 hs)) consistent'
          something' ended', tree]

/-- Three snapshots in their order, the last one twice, and the same with the newest first: one
schedule interrupts a transition, the other never gets beyond its first state. -/
theorem gather_perm_newest_first :
    let rules : MotionRules := { duration := 100 }
    let pot (n : String) : Tree := .map [("pot", .text n)]
    let first : Snapshot := ⟨1, pot "10", by decide +kernel⟩
    let second : Snapshot := ⟨2, pot "20", by decide +kernel⟩
    let third : Snapshot := ⟨3, pot "30", by decide +kernel⟩
    let ss := [first, second, third, third]
    let ss' := [third, first, third, second]
    ((gather rules ss').gameState.version = some 3 ∧
        (gather rules ss').gameState.tree = pot "30" ∧
        (gather rules ss').gameState.accepted = 1 ∧ (gather rules ss).gameState.accepted = 3) ∧
      (gather rules ss').schedule.transitions.length = 1 ∧
      (gather rules ss).schedule.transitions.length = 2 ∧
      ((gather rules ss').frameAt 200).root = ((gather rules ss).frameAt 200).root := by
  intro rules pot first second third ss ss'
  have consistent : Consistent ss := by
    unfold Consistent
    decide +kernel
  have p : ss'.Perm ss := by decide +kernel
  have interrupting : rules.Interrupting := ⟨⟨by decide +kernel, by decide +kernel⟩, by decide⟩
  have plain : ∀ s ∈ ss, s.state.Plain := by decide +kernel
  have ended' : IsOverBy (gather rules ss').schedule.transitions 200 := by
    unfold IsOverBy
    decide +kernel
  have ended : IsOverBy (gather rules ss).schedule.transitions 200 := by
    unfold IsOverBy
    decide +kernel
  obtain ⟨-, -, ⟨version, tree, -⟩, -, drawn⟩ := gather_perm rules consistent p
  refine ⟨⟨version.trans rfl, tree third (by simp [ss]) rfl, by decide +kernel,
    by decide +kernel⟩, by decide +kernel, by decide +kernel,
    drawn interrupting plain 200 ended' ended⟩

end Table

end TableMotion
