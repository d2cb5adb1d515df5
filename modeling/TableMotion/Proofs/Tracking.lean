import TableMotion.Proofs.Differences
import TableMotion.Proofs.Editing

/-!
# Schedules that lead to a state

In trees without lists, what the transitions of a schedule lead to, written from the oldest to the
newest, is the state that the schedule was made for: insertions that interrupt others follow the
state from change to change (`Tracks.insert`), and prunings keep it (`Tracks.prune`).
-/

namespace TableMotion

namespace Schedule

open TableMotion.Tree Transition

variable {value : Transition → Option Tree}

/-! ## What an interruption leaves -/

/-- Two runs of writes that agree off a path still do when one of them leaves out writes there. -/
theorem agreeOff_writeAll_filter {p : Path} {keep : Transition → Bool} {rs : List Transition}
    (plain : PlainValues value rs) (there : ∀ r ∈ rs, keep r = false → p.covers r.path = true)
    {s u : Option Tree} (hs : PlainSlot s) (hu : PlainSlot u) (h : AgreeOff p s u) :
    AgreeOff p (writeAll value s (rs.filter keep)) (writeAll value u rs) := by
  induction rs generalizing s u with
  | nil => exact h
  | cons r rs ih =>
    have thereRest : ∀ x ∈ rs, keep x = false → p.covers x.path = true := fun x hx =>
      there x (List.mem_cons_of_mem r hx)
    rw [List.filter_cons, writeAll_cons]
    by_cases kept : keep r = true
    · rw [if_pos kept, writeAll_cons]
      exact ih plain.tail thereRest (hs.putBelow plain.head _) (hu.putBelow plain.head _)
        (h.putBelow hs hu plain.head r.path)
    · have under := there r List.mem_cons_self (by simpa using kept)
      rw [if_neg kept]
      exact ih plain.tail thereRest hs (hu.putBelow plain.head _)
        (h.trans (agreeOff_putBelow hu plain.head under).symm)

/-- Folding at a path changes what is written there at most. -/
theorem agreeOff_writeAll_handDown (takes : TakesFolds value) {g : Transition}
    (hg : PlainSlot g.finish) {rs : List Transition} (ends : ∀ r ∈ rs, r.PlainEnds)
    {s u : Option Tree} (hs : PlainSlot s) (hu : PlainSlot u) (h : AgreeOff g.path s u) :
    AgreeOff g.path (writeAll value s (rs.map (handDown g))) (writeAll value u rs) := by
  induction rs generalizing s u with
  | nil => exact h
  | cons r rs ih =>
    have endsR := ends r List.mem_cons_self
    have plainR := takes.plain endsR
    have plainFolded := takes.plain (plainEnds_handDown hg endsR)
    have unfolded : AgreeOff g.path (putBelow s r.path (value (handDown g r)))
        (putBelow s r.path (value r)) := by
      by_cases older : r.Older g
      · by_cases covers : r.path.covers g.path = true
        · obtain ⟨below, split⟩ := Path.covers_iff.1 covers
          have itself := Path.covers_self below
          unfold AgreeOff
          rw [takes.folds endsR older split, split,
            putBelow_append hs (plainR.putBelow hg below), putBelow_append hs plainR]
          exact congrArg (Schedule.putBelow s r.path) (agreeOff_putBelow plainR hg itself)
        · rw [handDown_of_not_covers (by simpa using covers)]
          exact AgreeOff.refl ..
      · rw [handDown_of_not_older older]
        exact AgreeOff.refl ..
    rw [List.map_cons, writeAll_cons, writeAll_cons, handDown_path]
    exact ih (fun x hx => ends x (List.mem_cons_of_mem r hx)) (hs.putBelow plainFolded _)
      (hu.putBelow plainR _) (unfolded.trans (h.putBelow hs hu plainR r.path))

theorem agreeOff_writeAll_foldl_handDown (takes : TakesFolds value) {p : Path}
    {gone : List Transition} (hg : ∀ g ∈ gone, PlainSlot g.finish ∧ g.path = p)
    {rs : List Transition} (ends : ∀ r ∈ rs, r.PlainEnds) :
    AgreeOff p (writeAll value none (gone.foldl (fun rs g => rs.map (handDown g)) rs))
      (writeAll value none rs) := by
  induction gone generalizing rs with
  | nil => exact AgreeOff.refl ..
  | cons g gone ih =>
    obtain ⟨plainG, rfl⟩ := hg g List.mem_cons_self
    have endsFolded : ∀ r ∈ rs.map (handDown g), r.PlainEnds := by
      intro x hx
      obtain ⟨r, hr, rfl⟩ := List.mem_map.1 hx
      exact plainEnds_handDown plainG (ends r hr)
    exact (ih (fun x hx => hg x (List.mem_cons_of_mem g hx)) endsFolded).trans
      (agreeOff_writeAll_handDown takes plainG ends slot_none slot_none (AgreeOff.refl ..))

/-- An interruption changes what is written at its path at most. -/
theorem agreeOff_writeAll_interrupt (takes : TakesFolds value) {s : Schedule}
    (ends : ∀ r ∈ s.transitions, r.PlainEnds) (p : Path) (time : Binary64) :
    AgreeOff p (writeAll value none (s.interrupt p time).transitions)
      (writeAll value none s.transitions) := by
  have endsKept : ∀ r ∈ s.transitions.filter fun r => !isCutAt p time r, r.PlainEnds :=
    fun r hr => ends r (List.mem_filter.1 hr).1
  have gone : ∀ g ∈ byPrecedence (s.transitions.filter (isCutAt p time)),
      PlainSlot g.finish ∧ g.path = p := by
    intro g hg
    obtain ⟨member, cut⟩ := List.mem_filter.1 (mem_byPrecedence.1 hg)
    exact ⟨(ends g member).finish, isCutAt_path cut⟩
  refine (agreeOff_writeAll_foldl_handDown takes gone endsKept).trans ?_
  refine agreeOff_writeAll_filter (fun r hr => takes.plain (ends r hr)) ?_ slot_none slot_none
    (AgreeOff.refl ..)
  intro r _ cut
  rw [isCutAt_path (by simpa using cut)]
  exact Path.covers_self p

/-! ## Following the state -/

/-- A schedule at a time, in trees without lists, that leads to a state: its transitions stand from
the oldest to the newest and write the state one after another. -/
structure Tracks (s : Schedule) (now : Binary64) (state : Tree) : Prop where
  sound : s.Sound
  ordered : s.transitions.Pairwise Older
  started : ∀ r ∈ s.transitions, r.startTime.totalRank ≤ now.totalRank
  ends : ∀ r ∈ s.transitions, r.PlainEnds
  lasting : ∀ r ∈ s.transitions,
    r.duration.isFinite = true ∨ r.startTime = 0 ∧ r.start = r.finish
  written : writeAll (·.finish) none s.transitions = some state

variable {s : Schedule} {now : Binary64} {state : Tree}

theorem Tracks.later (h : s.Tracks now state) {later : Binary64}
    (le : now.totalRank ≤ later.totalRank) : s.Tracks later state :=
  { h with started := fun r hr => Int.le_trans (h.started r hr) le }

theorem tracks_startWith (nothing : s.transitions = []) (plain : state.Plain)
    (source : Option Nat) (le : (0 : Binary64).totalRank ≤ now.totalRank) :
    (s.startWith state source).Tracks now state where
  sound := sound_startWith nothing plain.wellFormed source
  ordered := by
    rw [startWith_transitions nothing]
    exact List.pairwise_singleton ..
  started := by
    intro r hr
    rw [startWith_transitions nothing] at hr
    rw [List.mem_singleton.1 hr]
    exact le
  ends := by
    intro r hr
    rw [startWith_transitions nothing] at hr
    rw [List.mem_singleton.1 hr]
    exact ⟨slot_some.2 plain, slot_some.2 plain⟩
  lasting := by
    intro r hr
    rw [startWith_transitions nothing] at hr
    rw [List.mem_singleton.1 hr]
    exact Or.inr ⟨rfl, rfl⟩
  written := by
    rw [startWith_transitions nothing, writeAll_cons, writeAll_nil]
    exact putBelow_root ..

theorem lasting_handDown (g : Transition) {r : Transition}
    (h : r.duration.isFinite = true ∨ r.startTime = 0 ∧ r.start = r.finish) :
    (handDown g r).duration.isFinite = true ∨
      (handDown g r).startTime = 0 ∧ (handDown g r).start = (handDown g r).finish := by
  rw [handDown_duration, handDown_startTime]
  exact h.imp id fun ⟨atZero, same⟩ => ⟨atZero, handDown_same g same⟩

theorem plainSlot_opening (ends : ∀ r ∈ s.transitions, r.PlainEnds) {c : Change}
    (old : PlainSlot c.old) (time : Binary64) (joining : Joining) :
    PlainSlot (s.opening c time joining).2 :=
  slot_opening (fun a => slot_some.1 (plainSlot_amount a))
    (fun r hr => ⟨(ends r hr).start, (ends r hr).finish⟩) old time joining

theorem plainEnds_interrupt (ends : ∀ r ∈ s.transitions, r.PlainEnds) (p : Path)
    (time : Binary64) : ∀ r ∈ (s.interrupt p time).transitions, r.PlainEnds := by
  apply forall_interrupt
  · intro g hg r hr
    exact plainEnds_handDown (ends g hg).finish hr
  · exact ends

/-- What an interruption leaves, and the change written last, lead to the changed state. -/
theorem Tracks.written_insert (h : s.Tracks now state) {c : Change} {state' : Tree}
    (made : state.put c.path c.new = .ok state') {r : Transition} (path : r.path = c.path)
    (finish : r.finish = c.new) :
    writeAll (·.finish) none ((s.interrupt c.path now).transitions ++ [r]) = some state' := by
  have kept := agreeOff_writeAll_interrupt takesFolds_finish h.ends c.path now
  have plainKept : PlainSlot (writeAll (·.finish) none (s.interrupt c.path now).transitions) := by
    refine PlainValues.writeAll ?_ slot_none
    intro x hx
    exact (plainEnds_interrupt h.ends c.path now x hx).finish
  have plainAll : PlainSlot (writeAll (·.finish) none s.transitions) := by
    refine PlainValues.writeAll ?_ slot_none
    intro x hx
    exact (h.ends x hx).finish
  calc writeAll (·.finish) none ((s.interrupt c.path now).transitions ++ [r])
      = putBelow (writeAll (·.finish) none (s.interrupt c.path now).transitions) c.path c.new := by
        rw [writeAll_snoc, path, finish]
    _ = putBelow (writeAll (·.finish) none s.transitions) c.path c.new :=
        kept.putBelow_eq plainKept plainAll (Path.covers_self c.path) c.new
    _ = putBelow (some state) c.path c.new := by rw [h.written]
    _ = some state' := putBelow_of_put made

/-- An insertion that interrupts others follows the state. -/
theorem Tracks.insert (h : s.Tracks now state) {c : Change} {state' : Tree}
    (finite : now.isFinite = true) {timing : Timing} (override : timing.joining = .override)
    (finiteDuration : timing.duration.isFinite = true) (old : PlainSlot c.old)
    (new : PlainSlot c.new) (made : state.put c.path c.new = .ok state') (source : Option Nat) :
    (s.insert c now timing source).Tracks now state' := by
  have sound := h.sound.insert finite finiteDuration (old.imp fun _ => Plain.wellFormed)
    (new.imp fun _ => Plain.wellFormed) source
  have atNow := opened_startTime s c now source override
  refine ⟨sound, ?_, ?_, ?_, ?_, ?_⟩
  · rw [insert_of_override s c now source override]
    refine pairwise_push (pairwise_interrupt h.ordered c.path now) fun a ha => ?_
    have fresh := (h.sound.interrupt c.path now).fresh a ha
    have started := forall_interrupt (fun g _ r hr => by rwa [handDown_startTime]) h.started
      c.path now a ha
    exact older_opened source override fresh started
  · apply forall_insert
    · intro g _ r hr
      rwa [handDown_startTime]
    · exact h.started
    · exact Int.le_of_eq (by rw [atNow])
  · apply forall_insert
    · intro g hg r hr
      exact plainEnds_handDown (h.ends g hg).finish hr
    · exact h.ends
    · exact ⟨plainSlot_opening h.ends old now _, new⟩
  · apply forall_insert
    · intro g _ r hr
      exact lasting_handDown g hr
    · exact h.lasting
    · exact Or.inl (cleanDuration_isFinite finiteDuration)
  · rw [insert_of_override s c now source override]
    exact h.written_insert made rfl rfl

/-- Pruning keeps what the schedule leads to. -/
theorem Tracks.prune (h : s.Tracks now state) (time : Binary64) :
    (s.prune time).Tracks now state := by
  have left := prune_transitions h.ordered time
  have settling : Settling (settled time s.transitions) [] :=
    Settling.foldl ⟨by simpa using h.ordered, by simpa using h.ends⟩ time
  obtain ⟨b, hb, atRoot, endless, -⟩ := h.sound.base
  refine ⟨h.sound.prune time, ?_, ?_, ?_, ?_, ?_⟩
  · rw [left]
    simpa using settling.ordered
  · rw [left]
    exact forall_settled (fun g _ r hr => by rwa [handDown_startTime]) h.started time
  · rw [left]
    simpa using settling.ends
  · rw [left]
    refine forall_settled ?_ h.lasting time
    exact fun g _ r hr => lasting_handDown g hr
  · rw [left, ← h.written]
    exact writeAll_settled takesFolds_finish h.ordered h.ends (fun _ _ _ => rfl)
      ⟨b, hb, atRoot, by simp [isOverBefore, endless]⟩

end Schedule

end TableMotion
