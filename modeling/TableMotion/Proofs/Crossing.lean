import TableMotion.Proofs.Landing
import TableMotion.Proofs.Mirroring
import TableMotion.Proofs.Standing

/-!
# From one tree to another

`crossing old new` is the schedule that starts with one tree and goes to another in one span of
time. Up to the start of the span the frame is the old tree, from its end on it is the new one, and
at no time is anything skipped (`frameAt_crossing`). In between amounts are on their way and
everything else switches at once (`Crosses.sides`). So a frame is built like the one at the start,
where every transition writes what the old tree has there already (`Crosses.lands_start`), or like
the one at the end, where the transitions lay out the new tree (`Crosses.lands_finish`).
-/

namespace TableMotion

open TableMotion.Tree

/-! ## Values on their way -/

namespace Transition

/-- Amounts apart, a transition shows one of its ends. -/
theorem map_valueAt (r : Transition) (time : Binary64) (a : Amount) :
    (r.valueAt time).map (mapAmounts fun _ => a) =
      (if r.showsStartAt time then r.start else r.finish).map (mapAmounts fun _ => a) := by
  by_cases amounts : r.IsOfAmounts
  · obtain ⟨x, y, atStart, atFinish⟩ := amounts
    have side : (if r.showsStartAt time then r.start else r.finish).map (mapAmounts fun _ => a) =
        some (.amount a) := by
      split
      · rw [atStart]
        rfl
      · rw [atFinish]
        rfl
    rw [side]
    rcases r.valueAt_cases time with same | same | ⟨z, same⟩
    · rw [same, atStart]
      rfl
    · rw [same, atFinish]
      rfl
    · rw [same]
      rfl
  · rw [valueAt_of_not_amounts amounts]

/-- A transition that takes a change through a span of time. -/
structure Runs (onset span : Binary64) (c : Change) (r : Transition) : Prop where
  path : r.path = c.path
  start : r.start = c.old
  finish : r.finish = c.new
  startTime : r.startTime = onset
  endTime : r.endTime = onset + span
  duration : r.duration = span
  switchPoint : r.switchPoint = Binary64.half

variable {onset span time : Binary64} {c : Change} {r : Transition}

/-- Whether what runs through a span of time, and cannot be eased, still shows its start. -/
def holdsStart (onset span time : Binary64) : Bool :=
  !(span ≤ 0 && onset ≤ time) &&
    (time ≤ onset ||
      !(onset + span ≤ time) && progress onset (onset + span) time < Binary64.half)

theorem Runs.showsStartAt (h : Runs onset span c r) (time : Binary64) :
    r.showsStartAt time = holdsStart onset span time := by
  simp only [Transition.showsStartAt, holdsStart, h.startTime, h.endTime, h.duration, h.switchPoint]

/-- Up to the start of its span a transition shows its start. -/
theorem Runs.valueAt_of_le (h : Runs onset span c r) (positive : 0 < span)
    (early : time ≤ onset) : r.valueAt time = r.start := by
  have lasting : ¬ span ≤ 0 := fun le => Int.not_lt.2 le.2.2 positive.2.2
  simp only [valueAt, h.duration, h.startTime, lasting, early, false_and, if_false, if_true]

/-- From the end of its span on a transition shows its finish. -/
theorem Runs.valueAt_of_ge (h : Runs onset span c r) (lasts : onset < onset + span)
    (late : onset + span ≤ time) : r.valueAt time = r.finish := by
  have past : ¬ time ≤ onset := by
    intro early
    exact Int.not_le.2 lasts.2.2 (Int.le_trans late.2.2 early.2.2)
  simp only [valueAt, h.startTime, h.endTime, past, late, if_false, if_true, ite_self]

end Transition

/-! ## The schedule -/

namespace Schedule

open Transition TableMotion.Frame

/-- The schedule that starts with one tree and goes to another in one span of time. -/
def crossing (old new : Tree) (onset span : Binary64) (source : Option Nat) : Schedule :=
  (changes old new).foldl (fun s c => s.insert c onset (Timing.fixed span c) source)
    (empty.startWith old source)

/-- A span of time that changes can go through. -/
structure IsSpan (onset span : Binary64) : Prop where
  begun : (0 : Binary64).totalRank ≤ onset.totalRank
  finite : onset.isFinite = true
  bounded : span.isFinite = true
  forward : 0 ≤ span

/-- A schedule on its way from a tree: after the tree come the changes so far, which all run through
one span of time, and together they carry a state. -/
structure Crosses (s : Schedule) (old : Tree) (onset span : Binary64) (cs : List Change)
    (state : Tree) : Prop where
  sound : s.Sound
  carries : Carries s.transitions state
  row : ∃ b rs, s.transitions = b :: rs ∧ IsBase b ∧ b.start = some old ∧
    ∀ r ∈ rs, ∃ c ∈ cs, Runs onset span c r

variable {s : Schedule} {old new state : Tree} {onset span time : Binary64} {cs : List Change}

theorem crosses_startWith (nothing : s.transitions = []) (regular : old.Regular)
    (source : Option Nat) : (s.startWith old source).Crosses old onset span [] old where
  sound := sound_startWith nothing regular.wellFormed source
  carries := by
    rw [startWith_transitions nothing]
    exact carries_singleton rfl rfl regular
  row := ⟨_, [], startWith_transitions nothing old source, ⟨rfl, decide_eq_true rfl, rfl, rfl⟩,
    rfl, List.forall_mem_nil _⟩

theorem Crosses.cases (h : s.Crosses old onset span cs state) {r : Transition}
    (hr : r ∈ s.transitions) :
    (IsBase r ∧ r.start = some old) ∨ ∃ c ∈ cs, Runs onset span c r := by
  obtain ⟨b, rs, split, base, first, runs⟩ := h.row
  rw [split] at hr
  rcases List.mem_cons.1 hr with rfl | hr
  · exact Or.inl ⟨base, first⟩
  · exact Or.inr (runs r hr)

/-! ## Insertions -/

/-- What stands on the path of a change apart from those so far has no end. -/
theorem Crosses.free (h : s.Crosses old onset span cs state) {p : Path}
    (apart : ∀ x ∈ cs, x.path ≠ p) :
    ∀ r ∈ s.transitions, r.isEndless = true ∨ r.path ≠ p := by
  intro r hr
  rcases h.cases hr with ⟨base, -⟩ | ⟨x, hx, run⟩
  · exact Or.inl base.endless
  · exact Or.inr (run.path ▸ apart x hx)

theorem Crosses.begun (h : s.Crosses old onset span cs state) (isSpan : IsSpan onset span) :
    ∀ r ∈ s.transitions, r.startTime.totalRank ≤ onset.totalRank := by
  intro r hr
  rcases h.cases hr with ⟨base, -⟩ | ⟨x, -, run⟩
  · rw [base.start]
    exact isSpan.begun
  · exact Int.le_of_eq (by rw [run.startTime])

theorem runs_opened {c : Change} (onset : Binary64) (forward : 0 ≤ span)
    (free : ∀ r ∈ s.transitions, r.isEndless = true ∨ r.path ≠ c.path) (source : Option Nat) :
    Runs onset span c (s.opened c onset (Timing.fixed span c) source) := by
  have opening := opening_of_free free onset
  have clean := cleanDuration_of_nonneg forward
  constructor <;> simp [opened, Timing.fixed, opening, clean]

/-- A change that interrupts nothing comes last. -/
theorem transitions_insert_of_free {c : Change} (onset span : Binary64)
    (free : ∀ r ∈ s.transitions, r.isEndless = true ∨ r.path ≠ c.path) (source : Option Nat) :
    (s.insert c onset (Timing.fixed span c) source).transitions =
      s.transitions ++ [s.opened c onset (Timing.fixed span c) source] := by
  rw [insert_of_override s c onset source rfl]
  show (s.interrupt c.path onset).transitions ++ _ = _
  rw [interrupt_of_free free]

/-- A change apart from those so far comes along. -/
theorem Crosses.insert (h : s.Crosses old onset span cs state) (isSpan : IsSpan onset span)
    {c : Change} {state' : Tree} (apart : ∀ x ∈ cs, x.path ≠ c.path) (sides : HasSides Regular c)
    (step : Step state c state') (source : Option Nat) :
    (s.insert c onset (Timing.fixed span c) source).Crosses old onset span (cs ++ [c])
      state' := by
  have free := h.free apart
  have run := runs_opened onset isSpan.forward free source
  have inserted : (s.insert c onset (Timing.fixed span c) source).transitions =
      s.transitions ++ [s.opened c onset (Timing.fixed span c) source] :=
    transitions_insert_of_free onset span free source
  refine ⟨?_, ?_, ?_⟩
  · exact h.sound.insert isSpan.finite isSpan.bounded (sides.1.imp fun _ => Regular.wellFormed)
      (sides.2.imp fun _ => Regular.wellFormed) source
  · rw [inserted]
    exact h.carries.snoc step sides.2 run.path run.finish fun x hx =>
      older_opened source rfl (h.sound.fresh x hx) (h.begun isSpan x hx)
  · obtain ⟨b, rs, split, base, first, runs⟩ := h.row
    refine ⟨b, rs ++ [_], by rw [inserted, split]; rfl, base, first, fun r hr => ?_⟩
    rcases List.mem_append.1 hr with hr | hr
    · obtain ⟨x, hx, runX⟩ := runs r hr
      exact ⟨x, List.mem_append_left [c] hx, runX⟩
    · rw [List.mem_singleton.1 hr]
      exact ⟨c, List.mem_append_right cs List.mem_cons_self, run⟩

/-- Changes that stand apart and lead from one state to another come along one by one. -/
theorem Crosses.insertAll (h : s.Crosses old onset span cs state)
    (isSpan : IsSpan onset span) {ds : List Change} (leads : Leads state ds new)
    (apart : ApartChanges (cs ++ ds)) (sides : ∀ c ∈ ds, HasSides Regular c)
    (source : Option Nat) :
    (ds.foldl (fun s c => s.insert c onset (Timing.fixed span c) source) s).Crosses old onset
      span (cs ++ ds) new := by
  induction leads generalizing s cs with
  | nil => rwa [List.append_nil]
  | @cons t u w c ds step _ ih =>
    have free : ∀ x ∈ cs, x.path ≠ c.path := fun x hx =>
      ((List.pairwise_append.1 apart).2.2 x hx c List.mem_cons_self).ne
    have next := h.insert isSpan free (sides c List.mem_cons_self) step source
    rw [List.append_cons] at apart ⊢
    exact ih next apart fun d hd => sides d (List.mem_cons_of_mem c hd)

theorem crosses_crossing (hold : old.Regular) (hnew : new.Regular) (isSpan : IsSpan onset span)
    (source : Option Nat) :
    (crossing old new onset span source).Crosses old onset span (changes old new) new :=
  (crosses_startWith rfl hold source).insertAll isSpan (leads_changes old new hold hnew)
    (apart_changes old new hold.wellFormed hnew.wellFormed)
    (hasSides_changes regular_ofParts old new hold hnew) source

/-! ## Frames -/

theorem Crosses.exists_root (h : s.Crosses old onset span cs state) :
    ∃ b ∈ s.transitions, b.path = Path.root := by
  obtain ⟨b, rs, split, base, -⟩ := h.row
  rw [split]
  exact ⟨b, List.mem_cons_self, base.atRoot⟩

theorem Crosses.started (h : s.Crosses old onset span cs state) (isSpan : IsSpan onset span)
    (le : onset ≤ time) : ∀ r ∈ s.transitions, r.startTime ≤ time := by
  intro r hr
  rcases h.cases hr with ⟨base, -⟩ | ⟨c, -, run⟩
  · rw [base.start]
    exact Binary64.le_trans (Binary64.le_of_totalRank_le rfl le.1 isSpan.begun) le
  · rwa [run.startTime]

/-- The first tree is drawn where it is shown alone. -/
theorem lands_base {b : Transition} (base : IsBase b) (first : b.start = some old) :
    Lands (·.valueAt time) none (inWriteOrder time [b]) ∧
      writeAll (·.valueAt time) none (inWriteOrder time [b]) = some old := by
  apply lands_inWriteOrder_of_put_self (List.pairwise_singleton ..)
  · exact ⟨b, List.mem_singleton_self b, base.atRoot⟩
  · intro r hr
    rw [List.mem_singleton.1 hr, base.atRoot, valueAt_of_eq base.same, ← base.same, first]
    exact put_root_ok.2 rfl

/-- Before the span the first tree is shown alone. -/
theorem Crosses.lands_early (h : s.Crosses old onset span cs state) (early : ¬ onset ≤ time) :
    Lands (·.valueAt time) none (inWriteOrder time (shown time s.transitions)) ∧
      writeAll (·.valueAt time) none (inWriteOrder time (shown time s.transitions)) =
        some old := by
  obtain ⟨b, rs, split, base, first, runs⟩ := h.row
  have ordered := h.carries.ordered
  rw [split] at ordered ⊢
  have older : ∀ r ∈ rs, b.Older r := fun r hr => List.rel_of_pairwise_cons ordered hr
  have waiting : ∀ r ∈ rs, ¬ r.startTime ≤ time := by
    intro r hr
    obtain ⟨c, -, run⟩ := runs r hr
    rwa [run.startTime]
  have alone : shown time (b :: rs) = [b] := by
    apply shown_of_first base.atRoot
    · intro r hr
      have less : b.precedence r = .lt := older r hr
      simp [prevailsAt, waiting r hr, less]
    · intro r hr
      have notLess : ¬ r.precedence b = .lt := (older r hr).asymm
      simp [prevailsAt, waiting r hr, notLess]
  rw [alone]
  exact lands_base base first

theorem Crosses.layout (h : s.Crosses old onset span cs state) (isSpan : IsSpan onset span)
    (le : onset ≤ time) : Layout (shown time s.transitions) state :=
  layout_shown h.carries h.sound.distinct h.exists_root (h.started isSpan le)

/-- What transitions start from is the first tree, and each of them finds its place there. -/
theorem Crosses.lands_start (h : s.Crosses old onset span cs state)
    (isSpan : IsSpan onset span) (hold : old.WellFormed) (between : ∀ c ∈ cs, Between old new c)
    (le : onset ≤ time) :
    Lands (·.start) none (inWriteOrder time (shown time s.transitions)) ∧
      writeAll (·.start) none (inWriteOrder time (shown time s.transitions)) = some old := by
  have layout := h.layout isSpan le
  have same : ∀ r ∈ s.transitions, old.put r.path r.start = .ok old := by
    intro r hr
    rcases h.cases hr with ⟨base, first⟩ | ⟨c, hc, run⟩
    · rw [base.atRoot, first]
      exact put_root_ok.2 rfl
    · rw [run.path, run.start]
      exact (between c hc).put_old hold
  apply lands_inWriteOrder_of_put_self layout.ordered
  · obtain ⟨r, hr, ⟨q, atRoot, -⟩, -⟩ := layout.owner Path.root
    exact ⟨r, hr, (List.append_eq_nil_iff.1 atRoot.symm).1⟩
  · intro r hr
    exact same r (mem_of_mem_shown hr)

/-- What transitions finish with finds its place on the way to the new tree. -/
theorem Crosses.lands_finish (h : s.Crosses old onset span cs new)
    (isSpan : IsSpan onset span) (hnew : new.WellFormed) (between : ∀ c ∈ cs, Between old new c)
    (le : onset ≤ time) (values : ∀ r ∈ s.transitions, r.valueAt time = r.finish) :
    Lands (·.finish) none (inWriteOrder time (shown time s.transitions)) := by
  have room : ∀ r ∈ s.transitions, r.finish = none → ∃ u, new.put r.path none = .ok u := by
    intro r hr removal
    rcases h.cases hr with ⟨base, first⟩ | ⟨c, hc, run⟩
    · rw [← base.same, first] at removal
      cases removal
    · have stays := (between c hc).put_new hnew
      rw [← run.path, ← run.finish, removal] at stays
      exact ⟨new, stays⟩
  exact (h.layout isSpan le).lands (fun r hr => values r (mem_of_mem_shown hr))
    fun r hr => room r (mem_of_mem_shown hr)

/-- Amounts apart, all transitions show their starts, or all show their finishes. -/
theorem Crosses.sides (h : s.Crosses old onset span cs state) (time : Binary64) (a : Amount) :
    (∀ r ∈ s.transitions, (r.valueAt time).map (mapAmounts fun _ => a) =
        r.start.map (mapAmounts fun _ => a)) ∨
      ∀ r ∈ s.transitions, (r.valueAt time).map (mapAmounts fun _ => a) =
        r.finish.map (mapAmounts fun _ => a) := by
  cases holds : holdsStart onset span time with
  | true =>
    refine Or.inl fun r hr => ?_
    rcases h.cases hr with ⟨base, -⟩ | ⟨c, -, run⟩
    · rw [valueAt_of_eq base.same, base.same]
    · rw [map_valueAt, run.showsStartAt, holds, if_pos rfl]
  | false =>
    refine Or.inr fun r hr => ?_
    rcases h.cases hr with ⟨base, -⟩ | ⟨c, -, run⟩
    · rw [valueAt_of_eq base.same]
    · rw [map_valueAt, run.showsStartAt, holds, if_neg Bool.false_ne_true]

theorem Crosses.values_of_le (h : s.Crosses old onset span cs state) (positive : 0 < span)
    (early : time ≤ onset) : ∀ r ∈ s.transitions, r.valueAt time = r.start := by
  intro r hr
  rcases h.cases hr with ⟨base, -⟩ | ⟨c, -, run⟩
  · rw [valueAt_of_eq base.same, base.same]
  · exact run.valueAt_of_le positive early

/-- Up to the start of the span the frame is the first tree. -/
theorem Crosses.root_of_le (h : s.Crosses old onset span cs new) (isSpan : IsSpan onset span)
    (hold : old.WellFormed) (between : ∀ c ∈ cs, Between old new c) (positive : 0 < span)
    (early : time ≤ onset) : (s.frameAt time).root = some old := by
  show (ofTransitions s.transitions time).root = some old
  by_cases started : onset ≤ time
  · rw [root_ofTransitions_of_values (h.values_of_le positive early)]
    exact (h.lands_start isSpan hold between started).2
  · rw [root_ofTransitions]
    exact (h.lands_early started).2

theorem Crosses.values_of_ge (h : s.Crosses old onset span cs state)
    (lasts : onset < onset + span) (late : onset + span ≤ time) :
    ∀ r ∈ s.transitions, r.valueAt time = r.finish := by
  intro r hr
  rcases h.cases hr with ⟨base, -⟩ | ⟨c, -, run⟩
  · exact valueAt_of_eq base.same time
  · exact run.valueAt_of_ge lasts late

/-- From the end of the span on the frame is the new tree. -/
theorem Crosses.root_of_ge (h : s.Crosses old onset span cs new) (isSpan : IsSpan onset span)
    (lasts : onset < onset + span) (late : onset + span ≤ time) :
    (s.frameAt time).root = some new :=
  root_ofTransitions_of_carries h.carries h.sound.distinct h.exists_root
    (h.started isSpan (Binary64.le_trans (Binary64.le_of_lt lasts) late))
    (h.values_of_ge lasts late)

/-- No frame skips anything. -/
theorem Crosses.skipped (h : s.Crosses old onset span cs new) (isSpan : IsSpan onset span)
    (hold : old.WellFormed) (hnew : new.WellFormed) (between : ∀ c ∈ cs, Between old new c)
    (lasts : onset < onset + span) (time : Binary64) : (s.frameAt time).skipped = [] := by
  apply skipped_ofTransitions
  by_cases started : onset ≤ time
  · rcases h.sides time default with atStart | atFinish
    · exact (h.lands_start isSpan hold between started).1.congr
        (fun r hr => (atStart r (mem_of_mem_inWriteOrder hr)).symm) rfl
    · -- the frame at the end of the span makes the same writes
      have itself : onset + span ≤ onset + span := ⟨lasts.2.1, lasts.2.1, Int.le_refl _⟩
      have values := h.values_of_ge lasts itself
      have ends := Binary64.le_of_lt lasts
      have lands := h.lands_finish isSpan hnew between ends values
      have sameShown := shown_eq_of_started h.sound.distinct h.exists_root
        (h.started isSpan started) (h.started isSpan ends)
      have sameOrder : inWriteOrder time (shown time s.transitions) =
          inWriteOrder (onset + span) (shown (onset + span) s.transitions) := by
        rw [sameShown]
        apply inWriteOrder_congr
        intro r hr
        have side := congrArg Option.isSome (atFinish r (mem_of_mem_shown hr))
        rw [Option.isSome_map, Option.isSome_map] at side
        rw [isWrite, isWrite, side, values r (mem_of_mem_shown hr)]
      rw [← sameOrder] at lands
      exact lands.congr (fun r hr => (atFinish r (mem_of_mem_inWriteOrder hr)).symm) rfl
  · exact (h.lands_early started).1

/-- A schedule that goes from one tree to another in one span of time shows the first up to the
start of the span and the second from its end on, and at no time is a change left out. -/
theorem frameAt_crossing {old new : Tree} (hold : old.Regular) (hnew : new.Regular)
    {onset span : Binary64} (begun : 0 ≤ onset) (sign : onset ≠ Binary64.zero true)
    (bounded : span.isFinite = true) (positive : 0 < span) (lasts : onset < onset + span)
    (source : Option Nat) :
    (∀ time, time ≤ onset →
        ((crossing old new onset span source).frameAt time).root = some old) ∧
      (∀ time, onset + span ≤ time →
        ((crossing old new onset span source).frameAt time).root = some new) ∧
      ∀ time, ((crossing old new onset span source).frameAt time).skipped = [] := by
  have isSpan : IsSpan onset span :=
    ⟨Binary64.totalRank_le_of_le begun sign, Binary64.isFinite_of_lt begun lasts, bounded,
      Binary64.le_of_lt positive⟩
  have crosses := crosses_crossing hold hnew isSpan source
  have between := between_changes old new hold hnew
  refine ⟨fun time early => ?_, fun time late => ?_, fun time => ?_⟩
  · exact crosses.root_of_le isSpan hold.wellFormed between positive early
  · exact crosses.root_of_ge isSpan lasts late
  · exact crosses.skipped isSpan hold.wellFormed hnew.wellFormed between lasts time

/-- The board grows, a seat goes, the hand of another is folded, and the pot is half way at half
time. -/
theorem frameAt_crossing_next_street :
    let amount (n : Int) : Tree := .amount (Amount.ofInt n)
    let old : Tree := .map [
      ("board", .list [.text "Qh"]), ("pot", amount 10),
      ("seats", .list [.map [("hand", .list [.text "2c", .text "7d"])],
        .map [("hand", .list [])]])]
    let new : Tree := .map [
      ("board", .list [.text "Qh", .text "Jd", .text "3s"]), ("pot", amount 30),
      ("seats", .list [.map [("hand", .list [])]])]
    let s := crossing old new 10 100 none
    (s.frameAt 10).root = some old ∧ (s.frameAt 110).root = some new ∧
      (s.frameAt 60).skipped = [] ∧ (s.frameAt 60).get? ["pot"] = some (amount 20) := by
  intro amount old new s
  have hold : old.Regular := by decide +kernel
  have hnew : new.Regular := by decide +kernel
  have begun : (0 : Binary64) ≤ 10 := by decide +kernel
  have positive : (0 : Binary64) < 100 := by decide +kernel
  have lasts : (10 : Binary64) < 10 + 100 := by decide +kernel
  obtain ⟨before, after, nothing⟩ := frameAt_crossing hold hnew begun (by decide +kernel)
    (by decide +kernel) positive lasts none
  refine ⟨before 10 ?_, after 110 ?_, nothing 60, ?_⟩
  · decide +kernel
  · decide +kernel
  · decide +kernel

end Schedule

end TableMotion
