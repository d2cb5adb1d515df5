import TableMotion.Proofs.Drawing
import TableMotion.Proofs.Editing

/-!
# Pruning is not seen

A frame at or after the time of a pruning is the same with and without it
(`root_frameAt_prune_edits`), as long as the schedule holds no lists.
-/

namespace TableMotion

namespace Schedule

open TableMotion.Tree Transition TableMotion.Frame

variable {time later : Binary64}

/-- What is over before a time has started by any later one. -/
theorem started_of_over {r : Transition} (h : r.Sound) (le : time ≤ later)
    (ended : r.isOverBefore time = true) : r.startTime ≤ later := by
  simp only [isOverBefore, Bool.and_eq_true, decide_eq_true_eq] at ended
  exact Binary64.le_trans h.forward (Binary64.le_trans (Binary64.le_of_lt ended.2) le)

theorem valueAt_of_isOverBefore {r : Transition} (h : r.Sound) (le : time ≤ later)
    (ended : r.isOverBefore time = true) : r.valueAt later = r.finish := by
  simp only [isOverBefore, Bool.and_eq_true, decide_eq_true_eq] at ended
  have before : r.endTime < later :=
    ⟨ended.2.1, le.2.1, Int.lt_of_lt_of_le ended.2.2.2 le.2.2⟩
  exact valueAt_of_over h.forward before

/-- Pruning acts on the transitions that have started as on all. -/
theorem startedBy_prune {s : Schedule} (h : s.Sound) (le : time ≤ later) :
    startedBy later (s.prune time).transitions =
      settled time (startedBy later s.transitions) := by
  have ended : ∀ r ∈ byPrecedence s.transitions, r.isOverBefore time = true →
      decide (r.startTime ≤ later) = true := fun r hr isOver =>
    decide_eq_true (started_of_over (h.sound r (mem_byPrecedence.1 hr)) le isOver)
  unfold startedBy
  rw [byPrecedence_filter (h.prune time).distinct, byPrecedence_prune h.distinct,
    filter_settled (fun g r => by rw [handDown_startTime]) ended, byPrecedence_filter h.distinct]

/-- Pruning a sound schedule without lists does not change later frames. -/
theorem Sound.root_frameAt_prune {s : Schedule} (h : s.Sound)
    (ends : ∀ r ∈ s.transitions, r.PlainEnds) (le : time ≤ later) (nonneg : 0 ≤ later) :
    ((s.prune time).frameAt later).root = (s.frameAt later).root := by
  have ordered := pairwise_startedBy later h.distinct
  have endsStarted : ∀ r ∈ startedBy later s.transitions, r.PlainEnds := by
    intro r hr
    exact ends r (mem_startedBy.1 hr).1
  have settling : Settling (settled time (startedBy later s.transitions)) [] :=
    Settling.foldl ⟨by simpa using ordered, by simpa using endsStarted⟩ time
  have ended : ∀ r ∈ startedBy later s.transitions, r.isOverBefore time = true →
      r.valueAt later = r.finish := fun r hr isOver =>
    valueAt_of_isOverBefore (h.sound r (mem_startedBy.1 hr).1) le isOver
  have started : ∀ b : Transition, b.startTime = 0 → b.startTime ≤ later := by
    intro b start
    exact start ▸ nonneg
  have base : ∃ b ∈ startedBy later s.transitions,
      b.path = Path.root ∧ b.isOverBefore time = false := by
    obtain ⟨b, hb, atRoot, endless, start⟩ := h.base
    exact ⟨b, mem_startedBy.2 ⟨hb, started b start⟩, atRoot, by simp [isOverBefore, endless]⟩
  have startedRoot : ∀ {u : Schedule}, u.Sound →
      ∃ b ∈ u.transitions, b.path = Path.root ∧ b.startTime ≤ later := by
    intro u hu
    obtain ⟨b, hb, atRoot, -, start⟩ := hu.base
    exact ⟨b, hb, atRoot, started b start⟩
  calc ((s.prune time).frameAt later).root
      = writeAll (·.valueAt later) none (startedBy later (s.prune time).transitions) := by
        refine root_ofTransitions_eq_writeAll (h.prune time).distinct ?_
          (startedRoot (h.prune time))
        intro r hr
        rw [startedBy_prune h le] at hr
        exact (settling.ends r (by simpa using hr)).valueAt later
    _ = writeAll (·.valueAt later) none (startedBy later s.transitions) := by
        rw [startedBy_prune h le]
        exact writeAll_settled (takesFolds_valueAt later) ordered endsStarted ended base
    _ = (s.frameAt later).root :=
        (root_ofTransitions_eq_writeAll h.distinct
          (fun r hr => (endsStarted r hr).valueAt later) (startedRoot h)).symm

/-- Pruning is not seen at its time or later, whatever was inserted and pruned before. -/
theorem root_frameAt_prune_edits {state : Tree} (source : Option Nat) {es : List Edit}
    (wellFormed : state.WellFormed) (sound : ∀ e ∈ es, e.Sound)
    (noLists : ∀ r ∈ ((empty.startWith state source).edits es).transitions,
      NoListsSlot r.start ∧ NoListsSlot r.finish)
    (le : time ≤ later) (nonneg : 0 ≤ later) :
    ((((empty.startWith state source).edits es).prune time).frameAt later).root =
      (((empty.startWith state source).edits es).frameAt later).root := by
  have h := (sound_startWith (s := empty) rfl wellFormed source).edits sound
  refine h.root_frameAt_prune (fun r hr => ⟨?_, ?_⟩) le nonneg
  · exact plainSlot_iff.2 ⟨(h.sound r hr).start, (noLists r hr).1⟩
  · exact plainSlot_iff.2 ⟨(h.sound r hr).finish, (noLists r hr).2⟩

/-- An interrupted and a chained seat, a removal and a pot under a root that goes, pruned while the
last change is under way. -/
theorem root_frameAt_prune_edits_busy :
    let seat (name : String) : Option Tree := some (.text name)
    let state : Tree := .map [("pot", .text "none"), ("seats", .map [("1", .text "ada")])]
    let insert (path : Path) (old new : Option Tree) (time : Binary64) (joining : Joining) :=
      Edit.insert ⟨path, old, new⟩ time { duration := 50, joining } none
    let es := [insert ["seats", "1"] (seat "ada") (seat "bob") 10 .override,
      insert ["seats", "1"] (seat "bob") (seat "cy") 40 .override,
      insert ["seats", "2"] none (seat "dee") 40 .chain, .prune 50,
      insert ["seats", "2"] (seat "dee") none 60 .chain,
      insert ["pot"] (seat "none") (seat "some") 80 .override]
    let s := (empty.startWith state none).edits es
    (s.frameAt 110).root =
        some (.map
          [("pot", .text "some"), ("seats", .map [("1", .text "cy"), ("2", .text "dee")])]) ∧
      ((s.prune 100).frameAt 110).root = (s.frameAt 110).root := by
  intro seat state insert es s
  have wellFormed : state.WellFormed := by decide
  have sound : ∀ e ∈ es, e.Sound := by decide +kernel
  have noLists : ∀ r ∈ s.transitions, NoListsSlot r.start ∧ NoListsSlot r.finish := by
    decide +kernel
  have drawn : (s.frameAt 110).root = some (.map
      [("pot", .text "some"), ("seats", .map [("1", .text "cy"), ("2", .text "dee")])]) := by
    decide +kernel
  exact ⟨drawn, root_frameAt_prune_edits none wellFormed sound noLists (by decide +kernel)
    (by decide +kernel)⟩

end Schedule

end TableMotion
