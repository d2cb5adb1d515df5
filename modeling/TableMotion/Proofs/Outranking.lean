import Mathlib.Algebra.Group.Int.Defs
import TableMotion.Proofs.Drawing
import TableMotion.Proofs.Editing
import TableMotion.Proofs.Moves

/-!
# Newer messages stay on top

What a message brings starts at its time or later, so it goes before what has started by then, on
its own path and under it, and it queues behind what still waits on its path. Only a waiting
transition under the path, or one without end, can be overtaken and come up again at its start.
`staysOnTop_iff` says so of every paced run.
-/

namespace TableMotion

/-! ## What stays of a transition -/

namespace Transition

/-- A transition without its values, which is what folding leaves alone. -/
def outline (r : Transition) : Transition := { r with start := none, finish := none }

theorem outline_handDown (g h : Transition) :
    (Schedule.handDown g h).outline = h.outline := by
  obtain ⟨start, finish, same⟩ := Schedule.handDown_eq_with g h
  rw [same]
  rfl

end Transition

/-- How the rules let a change of a path join those before it. -/
def MotionRules.joiningAt (m : MotionRules) (p : Path) : Joining :=
  ((m.ruleFor? p).bind (·.joining)).getD .override

namespace Schedule

open Transition

/-- What is left of a row of transitions: some of them, with other values. -/
def Remains (ss rs : List Transition) : Prop := (ss.map outline).Sublist (rs.map outline)

theorem Remains.refl (rs : List Transition) : Remains rs rs := List.Sublist.refl _

theorem Remains.trans {rs ss ts : List Transition} (h : Remains ts ss) (k : Remains ss rs) :
    Remains ts rs := List.Sublist.trans h k

theorem remains_filter (keep : Transition → Bool) (rs : List Transition) :
    Remains (rs.filter keep) rs := List.filter_sublist.map outline

theorem remains_map {f : Transition → Transition} (same : ∀ r, (f r).outline = r.outline)
    (rs : List Transition) : Remains (rs.map f) rs := by
  have outlines : (rs.map f).map outline = rs.map outline := by
    rw [List.map_map]
    exact List.map_congr_left fun r _ => same r
  simp only [Remains, outlines, List.Sublist.refl]

theorem remains_interrupt (s : Schedule) (p : Path) (time : Binary64) :
    Remains (s.interrupt p time).transitions s.transitions := by
  rw [interrupt_transitions]
  exact (remains_map (field_handAllDown outline_handDown _) _).trans (remains_filter ..)

theorem remains_retire (rs : List Transition) (g : Transition) : Remains (retire rs g) rs :=
  (remains_map (outline_handDown g) _).trans (remains_filter ..)

theorem remains_prune (s : Schedule) (time : Binary64) :
    Remains (s.prune time).transitions s.transitions := by
  have folded : ∀ (gone rs : List Transition), Remains (gone.foldl retire rs) rs := by
    intro gone
    induction gone with
    | nil => exact Remains.refl
    | cons g gone ih => exact fun rs => (ih _).trans (remains_retire rs g)
  rw [prune_transitions_foldl]
  exact (folded _ _).trans (remains_filter ..)

theorem remains_cleared (s : Schedule) (c : Change) (time : Binary64) (joining : Joining) :
    Remains (s.cleared c time joining).transitions s.transitions :=
  holds_cleared (P := fun left => Remains left.transitions s.transitions) (Remains.refl _)
    (remains_interrupt s c.path time) joining

theorem Remains.forall {Q : Transition → Prop} (same : ∀ r, Q r.outline ↔ Q r)
    {rs ss : List Transition} (k : Remains ss rs) (h : ∀ r ∈ rs, Q r) : ∀ r ∈ ss, Q r := by
  intro r hr
  obtain ⟨x, hx, outlines⟩ := List.mem_map.1 (List.Sublist.subset k (List.mem_map_of_mem hr))
  rw [← same r, ← outlines, same x]
  exact h x hx

theorem Remains.pairwise {R : Transition → Transition → Prop}
    (same : ∀ a b, R a.outline b.outline ↔ R a b) {rs ss : List Transition} (k : Remains ss rs)
    (h : rs.Pairwise R) : ss.Pairwise R := by
  have outlined : (rs.map outline).Pairwise R :=
    List.pairwise_map.2 (h.imp fun related => (same _ _).2 related)
  exact (List.pairwise_map.1 (outlined.sublist k)).imp fun related => (same _ _).1 related

/-- The numbers go up in the order of insertion, and the next one is free. -/
structure Numbered (s : Schedule) : Prop where
  fresh : ∀ r ∈ s.transitions, r.id < s.nextId
  row : s.transitions.Pairwise fun a b => a.id < b.id

theorem Numbered.distinct {s : Schedule} (h : s.Numbered) : DistinctIds s.transitions :=
  h.row.imp Nat.ne_of_lt

theorem numbered_empty : Numbered empty := ⟨List.forall_mem_nil _, List.Pairwise.nil⟩

theorem Numbered.remains {s s' : Schedule} (h : s.Numbered)
    (k : Remains s'.transitions s.transitions) (next : s'.nextId = s.nextId) : s'.Numbered where
  fresh := by
    rw [next]
    exact k.forall (fun _ => Iff.rfl) h.fresh
  row := k.pairwise (fun _ _ => Iff.rfl) h.row

theorem Numbered.push {s : Schedule} (h : s.Numbered) {r : Transition} (number : r.id = s.nextId) :
    (s.push r).Numbered where
  fresh := fresh_push h.fresh number
  row := pairwise_push h.row fun a ha => number ▸ h.fresh a ha

theorem Numbered.perform {s : Schedule} (h : s.Numbered) (a : Act) : (s.perform a).Numbered := by
  cases a with
  | start state source => exact h.push rfl
  | edit e =>
    cases e with
    | insert c time timing source =>
      show (s.insert c time timing source).Numbered
      rw [insert_eq_push]
      have next := cleared_nextId s c time timing.joining
      exact (h.remains (remains_cleared s c time timing.joining) next).push next.symm
    | prune time => exact h.remains (remains_prune s time) rfl

/-- Whatever is done to a schedule, no two of its transitions share a number. -/
theorem Numbered.performAll {s : Schedule} (h : s.Numbered) (acts : List Act) :
    (s.performAll acts).Numbered := by
  induction acts generalizing s with
  | nil => exact h
  | cons a acts ih => exact ih (h.perform a)

end Schedule

/-! ## Overtaking -/

namespace Transition

/-- A transition overtakes one that waits in a chain at a time: it starts before the other and does
not queue behind it, since it lies above it or the other has no end. -/
def Overtakes (b a : Transition) (time : Binary64) : Prop :=
  a.joining = .chain ∧ time < a.startTime ∧ b.startTime < a.startTime ∧
    (b.path.isAbove a.path = true ∨ a.isEndless = true)

instance (b a : Transition) (time : Binary64) : Decidable (b.Overtakes a time) :=
  inferInstanceAs (Decidable (_ ∧ _ ∧ _ ∧ _))

/-- A transition that one of the first messages brought, as the rules join it. -/
structure Dated (rules : MotionRules) (now : Binary64) (count : Nat) (r : Transition) : Prop where
  sourced : ∃ k < count, r.source = some k
  finite : r.startTime.isFinite = true
  begun : (0 : Binary64).totalRank ≤ r.startTime.totalRank
  number : r.endTime.isNaN = false
  forward : r.startTime.totalRank ≤ r.endTime.totalRank
  started : r.joining = .override → r.startTime.totalRank ≤ now.totalRank
  chained : r.joining = .chain → rules.joiningAt r.path = .chain

/-- `b` was inserted after `a`, by a message that `clock` dates. If that was a later message and
covers the path of `a`, then `b` starts no earlier, unless it overtakes. -/
def Precedes (clock : Nat → Binary64) (a b : Transition) : Prop :=
  a.id < b.id ∧ ∀ i j, a.source = some i → b.source = some j →
    i ≤ j ∧ (i < j → b.path.covers a.path = true → ¬ b.Overtakes a (clock j) →
      a.startTime.totalRank ≤ b.startTime.totalRank)

variable {rules : MotionRules} {now later : Binary64} {count more : Nat} {r : Transition}

theorem Dated.mono (h : r.Dated rules now count) (counts : count ≤ more)
    (passes : now.totalRank ≤ later.totalRank) : r.Dated rules later more where
  sourced := by
    obtain ⟨k, less, source⟩ := h.sourced
    exact ⟨k, Nat.lt_of_lt_of_le less counts, source⟩
  finite := h.finite
  begun := h.begun
  number := h.number
  forward := h.forward
  started override := Int.le_trans (h.started override) passes
  chained := h.chained

theorem dated_outline : r.outline.Dated rules now count ↔ r.Dated rules now count := by
  constructor
  · rintro ⟨sourced, finite, begun, number, forward, started, chained⟩
    exact ⟨sourced, finite, begun, number, forward, started, chained⟩
  · rintro ⟨sourced, finite, begun, number, forward, started, chained⟩
    exact ⟨sourced, finite, begun, number, forward, started, chained⟩

end Transition

namespace Schedule

open Transition

/-- What the first messages of a run leave of their transitions. -/
structure Dated (rules : MotionRules) (clock : Nat → Binary64) (now : Binary64) (count : Nat)
    (s : Schedule) : Prop where
  fresh : ∀ r ∈ s.transitions, r.id < s.nextId
  each : ∀ r ∈ s.transitions, r.Dated rules now count
  row : s.transitions.Pairwise (Precedes clock)

variable {rules : MotionRules} {clock : Nat → Binary64} {now later : Binary64} {count more : Nat}
variable {s : Schedule}

theorem Dated.mono (h : s.Dated rules clock now count) (counts : count ≤ more)
    (passes : now.totalRank ≤ later.totalRank) : s.Dated rules clock later more :=
  ⟨h.fresh, fun r hr => (h.each r hr).mono counts passes, h.row⟩

theorem dated_empty : Schedule.empty.Dated rules clock now count where
  fresh := by
    intro r hr
    cases hr
  each := by
    intro r hr
    cases hr
  row := List.Pairwise.nil

theorem Dated.remains (h : s.Dated rules clock now count) {s' : Schedule}
    (k : Remains s'.transitions s.transitions) (next : s'.nextId = s.nextId) :
    s'.Dated rules clock now count where
  fresh := by
    rw [next]
    exact k.forall (fun _ => Iff.rfl) h.fresh
  each := k.forall (fun _ => dated_outline) h.each
  row := k.pairwise (fun _ _ => Iff.rfl) h.row

theorem Dated.push (h : s.Dated rules clock now count) {r : Transition} (number : r.id = s.nextId)
    (dated : r.Dated rules now count) (last : ∀ a ∈ s.transitions, Precedes clock a r) :
    (s.push r).Dated rules clock now count where
  fresh := fresh_push h.fresh number
  each := forall_push h.each dated
  row := pairwise_push h.row last

/-! ## The end of a chain -/

/-- The last transition of a path to end ends last, and has the highest precedence of those that
end with it. -/
theorem lastToEnd?_spec {p : Path} {tail : Transition} (found : s.lastToEnd? p = some tail)
    {a : Transition} (ha : a ∈ s.transitions) (onPath : a.path = p) (ends : a.isEndless = false) :
    a.endTime.totalRank < tail.endTime.totalRank ∨
      a.endTime.totalRank = tail.endTime.totalRank ∧ ¬ tail.Older a := by
  have candidate : a ∈ (s.onPath p).filter fun r => !r.isEndless := by
    simp [Schedule.onPath, ha, onPath, ends]
  have below := (greatest?_spec found).2 a candidate
  rw [Ordering.isLE_iff_ne_gt, Ordering.then_eq_gt, precedence_eq_gt_iff,
    Binary64.totalCompare, Int.compare_eq_gt, Int.compare_eq_eq] at below
  rcases Int.lt_trichotomy a.endTime.totalRank tail.endTime.totalRank with less | same | more
  · exact Or.inl less
  · exact Or.inr ⟨same, fun older => below (Or.inr ⟨same, older⟩)⟩
  · exact absurd (Or.inl more) below

/-- The last transition of a path to end does not end before any of them. -/
theorem exists_lastToEnd? {a : Transition} (ha : a ∈ s.transitions) (ends : a.isEndless = false) :
    ∃ tail, s.lastToEnd? a.path = some tail ∧ a.endTime.totalRank ≤ tail.endTime.totalRank := by
  have candidate : a ∈ (s.onPath a.path).filter fun r => !r.isEndless := by
    simp [Schedule.onPath, ha, ends]
  obtain ⟨tail, found⟩ := exists_greatest? _ candidate
  have last := lastToEnd?_spec found ha rfl ends
  exact ⟨tail, found, by omega⟩

/-! ## What a message inserts -/

/-- A change starts at once or where the last of its chain ends. -/
theorem opening_start_cases (s : Schedule) (c : Change) (time : Binary64) (joining : Joining) :
    (s.opening c time joining).1 = time ∨
      ∃ tail, s.lastToEnd? c.path = some tail ∧ time < tail.endTime ∧
        (s.opening c time joining).1 = tail.endTime := by
  cases joining with
  | override => exact Or.inl (opening_override_start s c time)
  | chain =>
    cases found : s.lastToEnd? c.path with
    | none => simp [opening, found]
    | some tail =>
      simp only [opening, found]
      split
      · rename_i waits
        exact Or.inr ⟨tail, rfl, waits, rfl⟩
      · exact Or.inl rfl

theorem Dated.finite_endTime (h : s.Dated rules clock now count) {r : Transition}
    (hr : r ∈ s.transitions) (ends : r.isEndless = false) : r.endTime.isFinite = true := by
  have dated := h.each r hr
  have forward := Binary64.le_of_totalRank_le
    (Binary64.isNaN_eq_false_of_isFinite dated.finite) dated.number dated.forward
  apply Binary64.isFinite_of_le dated.finite forward
  simpa [isEndless] using ends

/-- No change starts before its time. -/
theorem Dated.opening_start (h : s.Dated rules clock now count) (finite : now.isFinite = true)
    (c : Change) (joining : Joining) :
    (s.opening c now joining).1.isFinite = true ∧
      now.totalRank ≤ (s.opening c now joining).1.totalRank := by
  rcases opening_start_cases s c now joining with atOnce | ⟨tail, found, waits, atEnd⟩
  · rw [atOnce]
    exact ⟨finite, Int.le_refl _⟩
  · obtain ⟨member, ends⟩ := mem_of_lastToEnd? found
    rw [atEnd]
    exact ⟨h.finite_endTime member ends, Int.le_of_lt (Binary64.totalRank_lt_of_lt waits)⟩

theorem Dated.opened (h : s.Dated rules clock now count) (finite : now.isFinite = true)
    (begun : (0 : Binary64).totalRank ≤ now.totalRank) (c : Change) {number : Nat}
    (counted : number < count) :
    (s.opened c now (rules.timingOf c) (some number)).Dated rules now count := by
  obtain ⟨finiteStart, forward⟩ := h.opening_start finite c (rules.timingOf c).joining
  have begunStart := Int.le_trans begun forward
  obtain ⟨isNumber, runs⟩ := Binary64.totalRank_le_add finiteStart begunStart
    (cleanDuration_nonneg (rules.timingOf c).duration)
  refine ⟨⟨number, counted, rfl⟩, finiteStart, begunStart, isNumber, runs, ?_, fun chain => chain⟩
  intro override
  exact Int.le_of_eq (by rw [opened_startTime s c now (some number) override])

/-- A change queues behind a transition of its path that still waits in a chain. -/
theorem Dated.endTime_le_opened (h : s.Dated rules clock now count) (finite : now.isFinite = true)
    (begun : (0 : Binary64).totalRank ≤ now.totalRank) {c : Change} (source : Option Nat)
    {a : Transition} (ha : a ∈ s.transitions) (samePath : c.path = a.path)
    (chained : a.joining = .chain) (ends : a.isEndless = false)
    (waits : now.totalRank < a.startTime.totalRank) :
    a.endTime.totalRank ≤ (s.opened c now (rules.timingOf c) source).startTime.totalRank := by
  obtain ⟨tail, found, later⟩ := exists_lastToEnd? ha ends
  have chain : (rules.timingOf c).joining = .chain := by
    show rules.joiningAt c.path = .chain
    rw [samePath]
    exact (h.each a ha).chained chained
  have waitsForTail : now < tail.endTime := by
    have numberTail := (h.each tail (mem_of_lastToEnd? found).1).number
    have forward := (h.each a ha).forward
    apply Binary64.lt_of_totalRank_lt (Binary64.isNaN_eq_false_of_isFinite finite) numberTail begun
    omega
  have atEnd : (s.opened c now (rules.timingOf c) source).startTime = tail.endTime := by
    simp only [Schedule.opened, chain, opening, samePath, found, if_pos waitsForTail]
  rw [atEnd]
  exact later

/-- What is inserted last starts last, unless it overtakes: what has started by now goes first in
any case, and what waits on the same path is waited for. -/
theorem Dated.precedes_opened (h : s.Dated rules clock now count) (finite : now.isFinite = true)
    (begun : (0 : Binary64).totalRank ≤ now.totalRank) (c : Change) {number : Nat}
    (last : count = number + 1) (dates : clock number = now) {a : Transition}
    (ha : a ∈ s.transitions) :
    Precedes clock a (s.opened c now (rules.timingOf c) (some number)) := by
  have datedA := h.each a ha
  obtain ⟨finiteStart, forward⟩ := h.opening_start finite c (rules.timingOf c).joining
  have isNumber := Binary64.isNaN_eq_false_of_isFinite finite
  have isNumberA := Binary64.isNaN_eq_false_of_isFinite datedA.finite
  refine ⟨h.fresh a ha, ?_⟩
  intro i j source sourceB
  cases sourceB
  obtain ⟨k, less, sameSource⟩ := datedA.sourced
  rw [source] at sameSource
  cases sameSource
  refine ⟨by omega, ?_⟩
  intro _ covers notOvertakes
  by_contra early
  rw [Int.not_le] at early
  have waits : now.totalRank < a.startTime.totalRank := Int.lt_of_le_of_lt forward early
  -- what has not started waits in a chain
  have chained : a.joining = .chain := by
    cases joining : a.joining with
    | chain => rfl
    | override => exact absurd (datedA.started joining) (Int.not_le.2 waits)
  have joins : ¬ (Path.isAbove c.path a.path = true ∨ a.isEndless = true) := by
    intro apart
    apply notOvertakes
    rw [dates]
    refine ⟨chained, ?_, ?_, apart⟩
    · exact Binary64.lt_of_totalRank_lt isNumber isNumberA begun waits
    · exact Binary64.lt_of_totalRank_lt (Binary64.isNaN_eq_false_of_isFinite finiteStart) isNumberA
        (Int.le_trans begun forward) early
  rw [not_or, Bool.not_eq_true a.isEndless] at joins
  have samePath : c.path = a.path :=
    (Path.covers_iff_eq_or_isAbove.1 covers).resolve_right joins.1
  have behind := h.endTime_le_opened finite begun (some number) ha samePath chained joins.2 waits
  have forwardA := datedA.forward
  omega

theorem Dated.insert (h : s.Dated rules clock now count) (finite : now.isFinite = true)
    (begun : (0 : Binary64).totalRank ≤ now.totalRank) (c : Change) {number : Nat}
    (last : count = number + 1) (dates : clock number = now) :
    (s.insert c now (rules.timingOf c) (some number)).Dated rules clock now count := by
  have counted : number < count := by omega
  have remains := remains_cleared s c now (rules.timingOf c).joining
  have next := cleared_nextId s c now (rules.timingOf c).joining
  rw [insert_eq_push]
  refine (h.remains remains next).push next.symm (h.opened finite begun c counted) ?_
  exact remains.forall (fun _ => Iff.rfl) fun a ha =>
    h.precedes_opened finite begun c last dates ha

theorem dated_startWith (waiting : s.transitions = [])
    (begun : (0 : Binary64).totalRank ≤ now.totalRank) (state : Tree) {number : Nat}
    (counted : number < count) :
    (s.startWith state (some number)).Dated rules clock now count := by
  have only := startWith_transitions waiting state (some number)
  constructor
  · intro r hr
    rw [only] at hr
    rw [List.mem_singleton.1 hr]
    exact Nat.lt_succ_self _
  · intro r hr
    rw [only] at hr
    rw [List.mem_singleton.1 hr]
    exact ⟨⟨number, counted, rfl⟩, Binary64.zero_isFinite, Int.le_refl _, rfl,
      Int.le_of_lt (Binary64.totalRank_lt_of_lt (Binary64.lt_infinity Binary64.zero_isFinite)),
      fun _ => begun, nofun⟩
  · rw [only]
    exact List.pairwise_singleton ..

/-! ## What is drawn -/

/-- `b` has the higher precedence, and once both have started `a` is not drawn. -/
def StaysOnTop (s : Schedule) (b a : Transition) : Prop :=
  a.Older b ∧ ∀ time, a.startTime ≤ time → b.startTime ≤ time →
    b.prevailsAt a time = true ∧ a ∉ Frame.shown time s.transitions

/-- What a later message brings stays on top of everything on its path and under it. -/
def NewestOnTop (s : Schedule) : Prop :=
  ∀ a ∈ s.transitions, ∀ b ∈ s.transitions, ∀ i j, a.source = some i → b.source = some j →
    i < j → b.path.covers a.path = true → s.StaysOnTop b a

theorem not_newestOnTop_of_older {i j : Nat} (later : i < j)
    (overtaken : ∃ a ∈ s.transitions, ∃ b ∈ s.transitions, a.source = some i ∧ b.source = some j ∧
      b.path.covers a.path = true ∧ b.Older a) : ¬ s.NewestOnTop := by
  intro newest
  obtain ⟨a, ha, b, hb, sourceA, sourceB, covers, older⟩ := overtaken
  exact older.asymm (newest a ha b hb i j sourceA sourceB later covers).1

theorem staysOnTop_of_older (distinct : DistinctIds s.transitions) {a b : Transition}
    (hb : b ∈ s.transitions) (covers : b.path.covers a.path = true) (older : a.Older b) :
    s.StaysOnTop b a := by
  refine ⟨older, ?_⟩
  intro time startedA startedB
  refine ⟨(prevailsAt_iff_of_started startedA).2 ⟨startedB, older⟩, ?_⟩
  intro drawn
  have apart := Frame.not_covers_of_mem_shown distinct drawn startedA hb startedB older
  rw [covers] at apart
  cases apart

/-- Messages insert in their order. -/
theorem Dated.precedes (h : s.Dated rules clock now count) {a b : Transition}
    (ha : a ∈ s.transitions) (hb : b ∈ s.transitions) {i j : Nat} (sourceA : a.source = some i)
    (sourceB : b.source = some j) (later : i < j) : Precedes clock a b := by
  have related : a = b ∨ Precedes clock a b ∨ Precedes clock b a :=
    List.Pairwise.forall_of_forall_of_flip (R := fun a b => a = b ∨ Precedes clock a b ∨
        Precedes clock b a) (fun x _ => Or.inl rfl)
      (h.row.imp fun precedes => Or.inr (Or.inl precedes))
      (h.row.imp fun precedes => Or.inr (Or.inr precedes)) ha hb
  rcases related with rfl | precedes | follows
  · rw [sourceA] at sourceB
    cases sourceB
    exact absurd later (Nat.lt_irrefl i)
  · exact precedes
  · have order := (follows.2 j i sourceB sourceA).1
    omega

/-- The later of two transitions stays on top exactly if it does not overtake. -/
theorem Dated.staysOnTop_iff_not_overtakes (h : s.Dated rules clock now count) {a b : Transition}
    (ha : a ∈ s.transitions) (hb : b ∈ s.transitions) {i j : Nat} (sourceA : a.source = some i)
    (sourceB : b.source = some j) (later : i < j) (covers : b.path.covers a.path = true) :
    s.StaysOnTop b a ↔ ¬ b.Overtakes a (clock j) := by
  constructor
  · rintro ⟨older, -⟩ ⟨-, -, earlier, -⟩
    have first := Binary64.totalRank_lt_of_lt earlier
    rw [older_iff] at older
    omega
  · intro joins
    apply staysOnTop_of_older (h.row.imp fun precedes => Nat.ne_of_lt precedes.1) hb covers
    have precedes := h.precedes ha hb sourceA sourceB later
    have starts := (precedes.2 i j sourceA sourceB).2 later covers joins
    have number := precedes.1
    rw [older_iff]
    omega

end Schedule

/-! ## Runs -/

namespace Table

open Schedule Transition

/-- What a paced run leaves, dated by its clock. -/
def Dated (clock : Nat → Binary64) (t : Table) : Prop :=
  t.schedule.Dated t.rules clock t.now t.nextMessage

theorem receive_nextMessage (t : Table) (m : Message) :
    (t.receive m).2.2.nextMessage = t.nextMessage + 1 := by
  have updated : ∀ (t : Table) (message : Nat) (version : Option Int) (patch : Patch),
      (t.update message version patch).2.2.nextMessage = t.nextMessage := by
    intro t message version patch
    unfold update
    split <;> rfl
  have ticked : ∀ (t : Table) (step : Tick), (t.tick step).2.2.nextMessage = t.nextMessage := by
    intro t step
    unfold tick
    split <;> rfl
  unfold receive
  cases m with
  | gameState u => exact updated ..
  | tournament u => exact updated ..
  | tick step =>
    have kept := ticked { t with
      nextMessage := t.nextMessage + 1
      tally := { t.tally with messages := t.tally.messages + 1 } } step
    simp only
    split
    · rename_i done
      rwa [done] at kept
    · rename_i done
      rwa [done] at kept
  | chat | notification | unrecognized => rfl

theorem Dated.insertAll {clock : Nat → Binary64} {t : Table} (h : t.Dated clock) (ready : t.Ready)
    (dates : clock t.nextMessage = t.now) (cs : List Change) :
    (t.insertAll t.nextMessage cs).Dated t.rules clock t.now (t.nextMessage + 1) := by
  have inserted : ∀ (cs : List Change) (s : Schedule),
      s.Dated t.rules clock t.now (t.nextMessage + 1) →
      (cs.foldl (fun s c => s.insert c t.now (t.rules.timingOf c) (some t.nextMessage)) s).Dated
        t.rules clock t.now (t.nextMessage + 1) := by
    intro cs
    induction cs with
    | nil => exact fun s hs => hs
    | cons c cs ih => exact fun s hs => ih _ (hs.insert ready.finite ready.begun c rfl dates)
  exact inserted cs _ (h.mono (Nat.le_succ _) (Int.le_refl _))

theorem Dated.receive {clock : Nat → Binary64} {t : Table} (h : t.Dated clock) (ready : t.Ready)
    {m : Message} (paced : t.IsPacedBy m) (dates : clock t.nextMessage = t.now) :
    (t.receive m).2.2.Dated clock := by
  have number := receive_nextMessage t m
  have move := move_receive t m
  generalize (t.receive m).2.2 = t' at number move
  have rules := move.rules_eq
  unfold Dated at h ⊢
  rw [number, rules]
  cases move with
  | stay _ sameClock schedule _ _ _ =>
    have now : t'.now = t.now := congrArg Clock.now sameClock
    rw [schedule, now]
    exact h.mono (Nat.le_succ _) (Int.le_refl _)
  | update _ _ _ sameClock _ _ _ schedule =>
    have now : t'.now = t.now := congrArg Clock.now sameClock
    rw [schedule, now]
    split
    · exact Dated.insertAll h ready dates _
    · rename_i first
      have waiting := ready.waiting (by simpa using first)
      exact dated_startWith waiting ready.begun _ (Nat.lt_succ_self _)
  | tick step finite forward _ now _ schedule =>
    rw [schedule, now]
    have passes := now_le_of_tick ready.finite finite forward paced
    exact (h.remains (remains_prune ..) rfl).mono (Nat.le_succ _) passes

theorem Dated.receiveAll {clock : Nat → Binary64} {t : Table} {ms : List Message}
    (h : t.Dated clock) (ready : t.Ready) (paced : t.Paced ms)
    (dates : ∀ j, clock (t.nextMessage + j) = (t.receiveAll (ms.take j)).2.now) :
    (t.receiveAll ms).2.Dated clock := by
  induction ms generalizing t with
  | nil => exact h
  | cons m ms ih =>
    obtain ⟨first, rest⟩ := paced
    rw [receiveAll_cons]
    refine ih (h.receive ready first (dates 0)) (ready.move first (move_receive t m)) rest ?_
    intro j
    have next := dates (j + 1)
    rw [List.take_succ_cons, receiveAll_cons] at next
    rw [← next, receive_nextMessage]
    congr 1
    omega

/-- When the messages of a run come: the clock before each. -/
def arrival (rules : MotionRules) (ms : List Message) (j : Nat) : Binary64 :=
  ((start rules).receiveAll (ms.take j)).2.now

/-- What a later message of a paced run brings goes before what it covers, and then the older
transition is not drawn once both have started, exactly unless it overtakes: the older one still
waits in a chain when the message comes, and lies under the later one or has no end. -/
theorem staysOnTop_iff (rules : MotionRules) {ms : List Message}
    (paced : (start rules).Paced ms) {a b : Transition}
    (ha : a ∈ ((start rules).receiveAll ms).2.schedule.transitions)
    (hb : b ∈ ((start rules).receiveAll ms).2.schedule.transitions) {i j : Nat}
    (sourceA : a.source = some i) (sourceB : b.source = some j) (later : i < j)
    (covers : b.path.covers a.path = true) :
    ((start rules).receiveAll ms).2.schedule.StaysOnTop b a ↔
      ¬ b.Overtakes a (arrival rules ms j) := by
  have started : (start rules).Dated (arrival rules ms) := dated_empty
  have dated := started.receiveAll (ready_start rules) paced fun j => by
    rw [show (start rules).nextMessage = 0 from rfl, Nat.zero_add, arrival]
  exact Schedule.Dated.staysOnTop_iff_not_overtakes dated ha hb sourceA sourceB later covers

/-- A seat is taken away while one change of its stack is under way and the next one waits: the
removal stays on top of the former and overtakes the latter. -/
theorem staysOnTop_iff_cleared_seat :
    let rules : MotionRules :=
      { duration := 100
        rules := [⟨⟨["seat", "stack"], false⟩, none, none, none, some .chain, none⟩] }
    let seat (stack : String) : Tree := .map [("seat", .map [("stack", .text stack)])]
    let ms : List Message := [
      .gameState ⟨some 1, seat "a", false⟩, .gameState ⟨some 2, seat "b", false⟩,
      .gameState ⟨some 3, seat "c", false⟩, .tick ⟨50, 0, none⟩,
      .gameState ⟨some 4, .emptyMap, false⟩]
    let change (id : Nat) (start finish : String) (time : Binary64) : Transition :=
      { id, path := ["seat", "stack"], presentation := .become, start := some (.text start)
        finish := some (.text finish), startTime := time, endTime := time + 100, duration := 100
        easing := .linear, switchPoint := Binary64.half, source := some id, joining := .chain }
    let removal : Transition :=
      { id := 3, path := ["seat"], presentation := .become
        start := some (.map [("stack", .text "c")]), finish := none, startTime := 50
        endTime := 150, duration := 100, easing := .linear, switchPoint := Binary64.half
        source := some 4, joining := .override }
    let s := ((start rules).receiveAll ms).2.schedule
    s.StaysOnTop removal (change 1 "a" "b" 0) ∧ ¬ s.StaysOnTop removal (change 2 "b" "c" 100) := by
  intro rules seat ms change removal s
  have paced : (start rules).Paced ms := by decide +kernel
  have first : change 1 "a" "b" 0 ∈ s.transitions := by decide +kernel
  have second : change 2 "b" "c" 100 ∈ s.transitions := by decide +kernel
  have last : removal ∈ s.transitions := by decide +kernel
  constructor
  · apply (staysOnTop_iff rules paced first last rfl rfl (by decide) (by decide)).2
    decide +kernel
  · rw [staysOnTop_iff rules paced second last rfl rfl (by decide) (by decide), not_not]
    decide +kernel

/-- Two stacks that come up again over newer messages. In the first run a change of the stack waits
in a chain while the seat is taken away and comes back; in the second run the chain has grown
past the largest number, and the stack of the new seat changes as well. -/
theorem not_newestOnTop :
    let rules (duration : Binary64) : MotionRules :=
      { duration := 100, pruneGrace := 0
        rules := [⟨⟨["seat", "stack"], false⟩, some duration, none, none, some .chain, none⟩] }
    let state (version : Int) (state : Tree) : Message := .gameState ⟨some version, state, false⟩
    let seat (stack : String) : Tree := .map [("seat", .map [("stack", .text stack)])]
    let opening : List Message :=
      [state 1 (seat "a"), state 2 (seat "b"), state 3 (seat "c"), state 4 .emptyMap]
    let ms : List Message := opening ++ [state 5 (seat "d")]
    let ns : List Message :=
      opening ++ [.tick ⟨2000, 0, none⟩, state 5 (seat "d"), state 6 (seat "e")]
    let huge := Binary64.ofInt (10 ^ 308)
    let t := ((start (rules 100)).receiveAll ms).2
    let u := ((start (rules huge)).receiveAll ns).2
    ((start (rules 100)).Paced ms ∧ ¬ t.schedule.NewestOnTop ∧
        t.gameState.tree = seat "d" ∧ (t.frameAt 300).root = some (seat "c")) ∧
      ((start (rules huge)).Paced ns ∧ ¬ u.schedule.NewestOnTop ∧
        u.gameState.tree = seat "e" ∧
        (u.frameAt (Binary64.ofInt (15 * 10 ^ 307))).root = some (seat "b")) := by
  intro rules state seat opening ms ns huge t u
  constructor
  · refine ⟨by decide +kernel, ?_, by decide +kernel, by decide +kernel⟩
    exact not_newestOnTop_of_older (i := 2) (j := 4) (by decide) (by decide +kernel)
  · refine ⟨by decide +kernel, ?_, by decide +kernel, by decide +kernel⟩
    exact not_newestOnTop_of_older (i := 2) (j := 6) (by decide) (by decide +kernel)

end Table

end TableMotion
