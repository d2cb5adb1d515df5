import TableMotion.Proofs.Drawing
import TableMotion.Proofs.Moves
import TableMotion.Proofs.Tracking

/-!
# A settled table shows its state

A table whose changes interrupt each other, and whose state holds no lists, has a schedule that
leads to its state after every message (`Follows.move`). So once the transitions that have an end
are over, the frame is the state (`root_frameAt_receiveAll`).
-/

namespace TableMotion

open TableMotion.Tree

/-- Every duration is finite. -/
structure MotionRules.Finite (m : MotionRules) : Prop where
  finite : m.duration.isFinite = true
  finiteRules : ∀ r ∈ m.rules, r.duration.all Binary64.isFinite = true

theorem MotionRules.Finite.timingOf {m : MotionRules} (h : m.Finite) (c : Change) :
    (m.timingOf c).duration.isFinite = true := by
  unfold MotionRules.timingOf
  cases found : m.ruleFor? c.path with
  | none => exact h.finite
  | some r =>
    have all := h.finiteRules r (List.mem_of_find?_eq_some found)
    show ((r.duration).getD m.duration).isFinite = true
    cases named : r.duration with
    | none => exact h.finite
    | some duration => simpa [named] using all

/-- No rule makes a change wait for others, and every duration is finite. -/
structure MotionRules.Interrupting (m : MotionRules) : Prop extends m.Finite where
  override : ∀ r ∈ m.rules, r.joining ≠ some .chain

theorem MotionRules.Interrupting.timingOf {m : MotionRules} (h : m.Interrupting) (c : Change) :
    (m.timingOf c).joining = .override ∧ (m.timingOf c).duration.isFinite = true := by
  refine ⟨?_, h.toFinite.timingOf c⟩
  unfold MotionRules.timingOf
  cases found : m.ruleFor? c.path with
  | none => rfl
  | some r =>
    have notChain := h.override r (List.mem_of_find?_eq_some found)
    show (r.joining).getD .override = .override
    cases named : r.joining with
    | none => rfl
    | some joining =>
      cases joining with
      | override => rfl
      | chain => exact absurd named notChain

namespace Schedule

variable {s : Schedule} {now time : Binary64} {state : Tree}

/-- Changes that lead from one state to another are followed one by one. -/
theorem Tracks.insertAll (h : s.Tracks now state) {m : MotionRules} (interrupting : m.Interrupting)
    (finite : now.isFinite = true) {cs : List Change} {state' : Tree}
    (leads : Leads state cs state') (sides : ∀ c ∈ cs, HasSides Plain c) (source : Option Nat) :
    (cs.foldl (fun s c => s.insert c now (m.timingOf c) source) s).Tracks now state' := by
  refine leads.holds_foldl (Q := fun (s : Schedule) state => s.Tracks now state) ?_ h
  intro s state c state' hc tracks step
  obtain ⟨override, finiteDuration⟩ := interrupting.timingOf c
  obtain ⟨old, new⟩ := sides c hc
  exact tracks.insert finite override finiteDuration old new step.made source

/-- The transitions that have an end are over before a time. -/
structure SettledBy (s : Schedule) (time : Binary64) : Prop where
  ends : ∀ r ∈ s.transitions, r.duration.isFinite = true → r.endTime.isFinite = true
  ended : ∀ r ∈ s.transitions, r.endTime.isFinite = true → r.endTime < time

/-- What is over shows its finish, and so does the first state. -/
theorem Tracks.valueAt_settled (h : s.Tracks now state) (settled : s.SettledBy time)
    (nonneg : 0 ≤ time) {r : Transition} (hr : r ∈ s.transitions) :
    r.startTime ≤ time ∧ r.valueAt time = r.finish := by
  rcases h.lasting r hr with finite | ⟨atZero, same⟩
  · have ended := settled.ended r hr (settled.ends r hr finite)
    have forward := (h.sound.sound r hr).forward
    exact ⟨Binary64.le_trans forward (Binary64.le_of_lt ended),
      Transition.valueAt_of_over forward ended⟩
  · rw [atZero]
    exact ⟨nonneg, Transition.valueAt_of_eq same time⟩

/-- The frame of a settled schedule is the state that it leads to. -/
theorem Tracks.root_frameAt (h : s.Tracks now state) (settled : s.SettledBy time)
    (nonneg : 0 ≤ time) : (s.frameAt time).root = some state := by
  have shown := fun r hr => h.valueAt_settled settled nonneg (r := r) hr
  have all : Frame.startedBy time s.transitions = s.transitions := by
    have started : s.transitions.filter (·.startTime ≤ time) = s.transitions :=
      List.filter_eq_self.2 fun r hr => decide_eq_true (shown r hr).1
    rw [Frame.startedBy, started, byPrecedence_of_pairwise h.ordered]
  obtain ⟨b, hb, atRoot, -, -⟩ := h.sound.base
  have plain : PlainValues (·.valueAt time) (Frame.startedBy time s.transitions) := by
    rw [all]
    intro r hr
    exact (h.ends r hr).valueAt time
  calc (s.frameAt time).root
      = writeAll (·.valueAt time) none (Frame.startedBy time s.transitions) :=
        Frame.root_ofTransitions_eq_writeAll h.sound.distinct plain
          ⟨b, hb, atRoot, (shown b hb).1⟩
    _ = writeAll (·.finish) none s.transitions := by
        rw [all]
        exact writeAll_congr (fun r hr => (shown r hr).2) none
    _ = some state := h.written

end Schedule

namespace Table

open Schedule

/-- What every message keeps: the schedule of a table that has taken an update leads to its
state. -/
structure Follows (t : Table) : Prop extends t.Ready where
  interrupting : t.rules.Interrupting
  plain : t.gameState.tree.Plain
  tracks : t.gameState.loaded = true → t.schedule.Tracks t.now t.gameState.tree

theorem follows_start {rules : MotionRules} (h : rules.Interrupting) : (start rules).Follows where
  toReady := ready_start rules
  interrupting := h
  plain := ⟨trivial, rfl⟩
  tracks := nofun

theorem Follows.move {t t' : Table} (h : t.Follows) {m : Message} (brings : m.Brings Plain)
    (paced : t.IsPacedBy m) (move : Move t m t') : t'.Follows := by
  have kept := h.holds_move plain_stable h.plain h.tracks brings paced move
    (fun state source plain nothing => tracks_startWith nothing plain source h.begun)
    (fun state number plain tracks => tracks.insertAll h.interrupting h.finite
      (leads_changes _ _ h.plain.regular plain.regular)
      (hasSides_changes plain_ofParts _ _ h.plain plain) (some number))
    (fun step _ _ later tracks => (tracks.prune _).later later)
  refine
    { toReady := h.toReady.move paced move, interrupting := ?_, plain := kept.1
      tracks := kept.2 }
  rw [move.rules_eq]
  exact h.interrupting

/-- A table that interrupts what is under way shows its state without lists once all is over,
whatever messages it has taken. -/
theorem root_frameAt_receiveAll {rules : MotionRules} (interrupting : rules.Interrupting)
    {ms : List Message} (brings : ∀ m ∈ ms, m.Brings Plain) (paced : (start rules).Paced ms)
    (accepted : 0 < ((start rules).receiveAll ms).2.gameState.accepted) {time : Binary64}
    (settled : ((start rules).receiveAll ms).2.schedule.SettledBy time) (nonneg : 0 ≤ time) :
    (((start rules).receiveAll ms).2.frameAt time).root =
      some ((start rules).receiveAll ms).2.gameState.tree := by
  have follows : ((start rules).receiveAll ms).2.Follows :=
    holds_receiveAll (fun t m t' hm h paced move => h.move (brings m hm) paced move)
      (follows_start interrupting) paced
  have loaded := follows.loaded.2 accepted
  exact (follows.tracks loaded).root_frameAt settled nonneg

/-- A seat that is taken while another name comes in, a pot that waits for no tick, a tournament and
a tick that prunes. -/
theorem root_frameAt_receiveAll_taken_seat :
    let rules : MotionRules :=
      { duration := 100, pruneGrace := 0
        rules := [⟨⟨["pot"], false⟩, some 30, none, none, some .override, none⟩] }
    let state (pot seat : String) : Tree :=
      .map [("pot", .text pot), ("seats", .map [("1", .text seat)])]
    let ms : List Message := [
      .gameState ⟨some 1, state "0" "free", false⟩,
      .gameState ⟨some 2, state "10" "ada", false⟩, .chat .null, .tick ⟨50, 0, none⟩,
      .gameState ⟨none, .map [("seats", .map [("1", .text "bob")])], true⟩,
      .gameState ⟨some 1, .null, false⟩, .tournament ⟨some 7, .text "final", false⟩]
    ((start rules).receiveAll ms).2.gameState.tree =
        .map [("pot", .text "10"), ("seats", .map [("1", .text "bob")]),
          ("tournament", .text "final")] ∧
      (((start rules).receiveAll ms).2.frameAt 200).root =
        some ((start rules).receiveAll ms).2.gameState.tree := by
  intro rules state ms
  have interrupting : rules.Interrupting := ⟨⟨by decide +kernel, by decide +kernel⟩, by decide⟩
  have brings : ∀ m ∈ ms, m.Brings Plain := by decide +kernel
  have paced : (start rules).Paced ms := by decide +kernel
  have accepted : 0 < ((start rules).receiveAll ms).2.gameState.accepted := by decide +kernel
  have settled : ((start rules).receiveAll ms).2.schedule.SettledBy 200 :=
    ⟨by decide +kernel, by decide +kernel⟩
  have nonneg : (0 : Binary64) ≤ 200 := by decide +kernel
  have shown := root_frameAt_receiveAll interrupting brings paced accepted settled nonneg
  exact ⟨by decide +kernel, shown⟩

end Table

end TableMotion
