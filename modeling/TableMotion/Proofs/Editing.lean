import TableMotion.Proofs.Retiring

/-!
# Runs of insertions and prunings

What holds of every schedule that starts with a state and goes on with insertions and prunings in
any order: numbers are not used twice, no transition ends before it starts, and the first state
stays as a root without end (`sound_edits`).
-/

namespace TableMotion

namespace Transition

open TableMotion.Tree

/-- A transition that can stand in a schedule: its values are well formed and it runs forward. -/
structure Sound (r : Transition) : Prop where
  start : WellFormedSlot r.start
  finish : WellFormedSlot r.finish
  finite : r.startTime.isFinite = true
  forward : r.startTime ≤ r.endTime

/-- A transition with an end has a finite one. -/
theorem Sound.finite_endTime {r : Transition} (h : r.Sound) (ends : r.isEndless = false) :
    r.endTime.isFinite = true := by
  apply Binary64.isFinite_of_le h.finite h.forward
  simpa [isEndless] using ends

theorem Sound.handDown {g h : Transition} (hg : g.Sound) (hh : h.Sound) :
    (Schedule.handDown g h).Sound where
  start := (Schedule.ends_handDown wellFormed_hereditary hg.finish ⟨hh.start, hh.finish⟩).1
  finish := (Schedule.ends_handDown wellFormed_hereditary hg.finish ⟨hh.start, hh.finish⟩).2
  finite := by
    rw [Schedule.handDown_startTime]
    exact hh.finite
  forward := by
    rw [Schedule.handDown_startTime, Schedule.handDown_endTime]
    exact hh.forward

end Transition

namespace Schedule

open TableMotion.Tree Transition

/-- What every edit keeps. -/
structure Sound (s : Schedule) : Prop where
  distinct : DistinctIds s.transitions
  fresh : ∀ r ∈ s.transitions, r.id < s.nextId
  sound : ∀ r ∈ s.transitions, r.Sound
  base : ∃ b ∈ s.transitions, b.path = Path.root ∧ b.isEndless = true ∧ b.startTime = 0

theorem startWith_transitions {s : Schedule} (nothing : s.transitions = []) (state : Tree)
    (source : Option Nat) :
    (s.startWith state source).transitions =
      [{ id := s.nextId, path := Path.root, presentation := .become, start := some state
         finish := some state, startTime := 0, endTime := Binary64.infinity false
         duration := Binary64.infinity false, easing := .linear, switchPoint := Binary64.half
         source, joining := .override }] := by
  simp [startWith, push, nothing]

theorem sound_startWith {s : Schedule} (nothing : s.transitions = []) {state : Tree}
    (h : state.WellFormed) (source : Option Nat) : (s.startWith state source).Sound where
  distinct := by
    rw [startWith_transitions nothing]
    exact List.pairwise_singleton ..
  fresh := by
    intro r hr
    rw [startWith_transitions nothing] at hr
    rw [List.mem_singleton.1 hr]
    exact Nat.lt_succ_self _
  sound := by
    intro r hr
    rw [startWith_transitions nothing] at hr
    rw [List.mem_singleton.1 hr]
    exact ⟨slot_some.2 h, slot_some.2 h, Binary64.zero_isFinite, Binary64.zero_le_infinity⟩
  base := by
    rw [startWith_transitions nothing]
    exact ⟨_, List.mem_singleton_self _, rfl, decide_eq_true rfl, rfl⟩

/-! ## Folding several transitions into one -/

/-- Folds several transitions into one. -/
def handAllDown (gone : List Transition) (r : Transition) : Transition :=
  gone.foldl (fun r g => handDown g r) r

theorem handAllDown_cons (g : Transition) (gone : List Transition) (r : Transition) :
    handAllDown (g :: gone) r = handAllDown gone (handDown g r) := rfl

/-- What folding keeps of one transition, folding several keeps too. -/
theorem holds_handAllDown {Q : Transition → Prop} {gone : List Transition}
    (keeps : ∀ g ∈ gone, ∀ r, Q r → Q (handDown g r)) {r : Transition} (h : Q r) :
    Q (handAllDown gone r) := by
  induction gone generalizing r with
  | nil => exact h
  | cons g gone ih =>
    rw [handAllDown_cons]
    apply ih
    · intro x hx
      exact keeps x (List.mem_cons_of_mem g hx)
    · exact keeps g List.mem_cons_self r h

theorem field_handAllDown {α : Type} {field : Transition → α}
    (same : ∀ g r, field (handDown g r) = field r) (gone : List Transition) (r : Transition) :
    field (handAllDown gone r) = field r := by
  apply holds_handAllDown (Q := fun x => field x = field r)
  · intro g _ x hx
    rw [same, hx]
  · rfl

section Fields

variable (gone : List Transition) (r y : Transition)

@[simp] theorem handAllDown_id : (handAllDown gone r).id = r.id :=
  field_handAllDown handDown_id gone r

@[simp] theorem handAllDown_path : (handAllDown gone r).path = r.path :=
  field_handAllDown handDown_path gone r

@[simp] theorem handAllDown_startTime : (handAllDown gone r).startTime = r.startTime :=
  field_handAllDown handDown_startTime gone r

@[simp] theorem handAllDown_endTime : (handAllDown gone r).endTime = r.endTime :=
  field_handAllDown handDown_endTime gone r

@[simp] theorem older_handAllDown_left : (handAllDown gone r).Older y ↔ r.Older y :=
  Older.congr (handAllDown_startTime gone r) (handAllDown_id gone r) rfl rfl

@[simp] theorem older_handAllDown_right : y.Older (handAllDown gone r) ↔ y.Older r :=
  Older.congr rfl rfl (handAllDown_startTime gone r) (handAllDown_id gone r)

end Fields

/-! ## Taking out what is cut short -/

theorem foldl_map_handDown (gone rs : List Transition) :
    gone.foldl (fun rs g => rs.map (handDown g)) rs = rs.map (handAllDown gone) := by
  induction gone generalizing rs with
  | nil => exact (List.map_id rs).symm
  | cons g gone ih =>
    rw [List.foldl_cons, ih, List.map_map]
    rfl

theorem interrupt_transitions (s : Schedule) (p : Path) (time : Binary64) :
    (s.interrupt p time).transitions =
      (s.transitions.filter fun r => !isCutAt p time r).map
        (handAllDown (byPrecedence (s.transitions.filter (isCutAt p time)))) :=
  foldl_map_handDown ..

theorem forall_interrupt {Q : Transition → Prop} {s : Schedule}
    (keeps : ∀ g ∈ s.transitions, ∀ r, Q r → Q (handDown g r)) (h : ∀ r ∈ s.transitions, Q r)
    (p : Path) (time : Binary64) : ∀ r ∈ (s.interrupt p time).transitions, Q r := by
  intro x hx
  rw [interrupt_transitions] at hx
  obtain ⟨r, hr, rfl⟩ := List.mem_map.1 hx
  apply holds_handAllDown
  · intro g hg
    exact keeps g (List.mem_filter.1 (mem_byPrecedence.1 hg)).1
  · exact h r (List.mem_filter.1 hr).1

theorem pairwise_interrupt {s : Schedule} (ordered : s.transitions.Pairwise Older) (p : Path)
    (time : Binary64) : (s.interrupt p time).transitions.Pairwise Older := by
  rw [interrupt_transitions]
  refine List.pairwise_map.2 ((ordered.filter _).imp ?_)
  intro a b older
  rwa [older_handAllDown_left, older_handAllDown_right]

theorem isCutAt_path {p : Path} {time : Binary64} {r : Transition}
    (h : isCutAt p time r = true) : r.path = p := by
  simp only [isCutAt, Bool.and_eq_true, decide_eq_true_eq] at h
  exact h.1.1.2

theorem not_isCutAt_of_isEndless {r : Transition} (endless : r.isEndless = true) (p : Path)
    (time : Binary64) : isCutAt p time r = false := by
  simp [isCutAt, endless]

theorem Sound.interrupt {s : Schedule} (h : s.Sound) (p : Path) (time : Binary64) :
    (s.interrupt p time).Sound where
  distinct := by
    rw [interrupt_transitions]
    refine List.pairwise_map.2 ((List.Pairwise.filter _ h.distinct).imp ?_)
    intro a b different
    rwa [handAllDown_id, handAllDown_id]
  fresh := forall_interrupt (fun g _ r hr => by rwa [handDown_id]) h.fresh p time
  sound := forall_interrupt (fun g hg r hr => (h.sound g hg).handDown hr) h.sound p time
  base := by
    obtain ⟨b, hb, atRoot, endless, start⟩ := h.base
    have kept := not_isCutAt_of_isEndless endless p time
    rw [interrupt_transitions]
    refine ⟨_, List.mem_map_of_mem (List.mem_filter.2 ⟨hb, by rw [kept]; rfl⟩), ?_, ?_, ?_⟩
    · rw [handAllDown_path, atRoot]
    · rw [isEndless, handAllDown_endTime]
      exact endless
    · rw [handAllDown_startTime, start]

/-! ## Inserting -/

/-- A fold that keeps the better of two at each step ends with the best, by a relation that says
of two which one may stay. -/
theorem foldl_picks {R : Transition → Transition → Prop} (refl : ∀ x, R x x)
    (trans : ∀ {x y z}, R x y → R y z → R x z) {pick : Transition → Transition → Transition}
    {first : Transition} {rest : List Transition}
    (picks : ∀ x ∈ first :: rest, ∀ y ∈ first :: rest,
      pick x y = x ∧ R y x ∨ pick x y = y ∧ R x y) :
    rest.foldl pick first ∈ first :: rest ∧ ∀ x ∈ first :: rest, R x (rest.foldl pick first) := by
  induction rest generalizing first with
  | nil => simp [refl]
  | cons y rest ih =>
    rw [List.foldl_cons]
    have within : ∀ z ∈ [first, y], ∀ x ∈ z :: rest, x ∈ first :: y :: rest := by
      intro z hz x hx
      rcases List.mem_cons.1 hx with rfl | hx
      · exact List.mem_append_left rest hz
      · exact List.mem_append_right [first, y] hx
    rcases picks first List.mem_cons_self y (within y (by simp) y List.mem_cons_self) with
      ⟨stays, below⟩ | ⟨taken, below⟩
    · have kept := within first (by simp)
      rw [stays]
      obtain ⟨member, best⟩ := ih fun x hx z hz => picks x (kept x hx) z (kept z hz)
      refine ⟨kept _ member, fun x hx => ?_⟩
      rcases List.mem_cons.1 hx with rfl | hx
      · exact best x List.mem_cons_self
      · rcases List.mem_cons.1 hx with rfl | hx
        · exact trans below (best first List.mem_cons_self)
        · exact best x (List.mem_cons_of_mem first hx)
    · have kept := within y (by simp)
      rw [taken]
      obtain ⟨member, best⟩ := ih fun x hx z hz => picks x (kept x hx) z (kept z hz)
      refine ⟨kept _ member, fun x hx => ?_⟩
      rcases List.mem_cons.1 hx with rfl | hx
      · exact trans below (best y List.mem_cons_self)
      · exact best x hx

/-- A greatest element is one of the list, and no other is above it. -/
theorem greatest?_spec {order : Transition → Transition → Ordering} [Std.TransCmp order]
    {rs : List Transition} {best : Transition} (h : greatest? order rs = some best) :
    best ∈ rs ∧ ∀ x ∈ rs, (order x best).isLE = true := by
  cases rs with
  | nil => cases h
  | cons first rest =>
    obtain rfl := Option.some.inj h
    apply foldl_picks (R := fun x y => (order x y).isLE = true)
    · intro x
      have equal : order x x = .eq := Std.ReflCmp.compare_self
      simp [equal]
    · exact Std.TransCmp.isLE_trans
    · intro x _ y _
      by_cases above : order x y = .gt
      · refine Or.inl ⟨if_pos above, ?_⟩
        simp [Std.OrientedCmp.gt_iff_lt.1 above]
      · exact Or.inr ⟨if_neg above, Ordering.isLE_iff_ne_gt.2 above⟩

theorem exists_greatest? (order : Transition → Transition → Ordering) {rs : List Transition}
    {r : Transition} (hr : r ∈ rs) : ∃ best, greatest? order rs = some best := by
  cases rs with
  | nil => cases hr
  | cons first rest => exact ⟨_, rfl⟩

theorem mem_of_underWay? {s : Schedule} {p : Path} {time : Binary64} {r : Transition}
    (h : s.underWay? p time = some r) : r ∈ s.transitions :=
  (List.mem_filter.1 (List.mem_filter.1 (greatest?_spec h).1).1).1

theorem mem_of_lastToEnd? {s : Schedule} {p : Path} {r : Transition}
    (h : s.lastToEnd? p = some r) : r ∈ s.transitions ∧ r.isEndless = false := by
  obtain ⟨onPath, ends⟩ := List.mem_filter.1 (greatest?_spec h).1
  exact ⟨(List.mem_filter.1 onPath).1, by simpa using ends⟩

theorem cleanDuration_isFinite {d : Binary64} (h : d.isFinite = true) :
    (cleanDuration d).isFinite = true := by
  unfold cleanDuration
  split
  · exact Binary64.zero_isFinite
  · exact h

theorem cleanDuration_nonneg (d : Binary64) : 0 ≤ cleanDuration d := by
  unfold cleanDuration
  split
  · decide +kernel
  · rename_i clean
    obtain ⟨number, notBelow⟩ := not_or.1 clean
    exact (Binary64.not_lt (by simpa using number) rfl).1 notBelow

theorem cleanDuration_of_nonneg {d : Binary64} (h : 0 ≤ d) : cleanDuration d = d := by
  have notBelow : ¬ d < 0 := fun less => Int.not_lt.2 h.2.2 less.2.2
  have number : ¬ d.isNaN = true := by simp [h.2.1]
  rw [cleanDuration, if_neg (not_or.2 ⟨number, notBelow⟩)]

/-- A change starts from its own value or from one of those on its path. -/
theorem slot_opening {P : Tree → Prop} (amount : ∀ a, P (.amount a)) {s : Schedule}
    (ends : ∀ r ∈ s.transitions, Slot P r.start ∧ Slot P r.finish) {c : Change}
    (old : Slot P c.old) (time : Binary64) (joining : Joining) :
    Slot P (s.opening c time joining).2 := by
  cases joining with
  | override =>
    cases found : s.underWay? c.path time with
    | none => simpa [Schedule.opening, found] using old
    | some r =>
      obtain ⟨start, finish⟩ := ends r (mem_of_underWay? found)
      simp only [Schedule.opening, found]
      exact slot_valueAt amount start finish time
  | chain =>
    cases found : s.lastToEnd? c.path with
    | none => simpa [Schedule.opening, found] using old
    | some tail =>
      simp only [Schedule.opening, found]
      split
      · exact (ends tail (mem_of_lastToEnd? found).1).2
      · exact old

/-- A change starts at a finite time and from a well-formed value. -/
theorem Sound.opening {s : Schedule} (h : s.Sound) {c : Change} {time : Binary64}
    (finite : time.isFinite = true) (old : WellFormedSlot c.old) (joining : Joining) :
    (s.opening c time joining).1.isFinite = true ∧
      WellFormedSlot (s.opening c time joining).2 := by
  refine ⟨?_, slot_opening (fun _ => trivial)
    (fun r hr => ⟨(h.sound r hr).start, (h.sound r hr).finish⟩) old time joining⟩
  cases joining with
  | override =>
    cases found : s.underWay? c.path time with
    | none => simpa [Schedule.opening, found] using finite
    | some r => simpa [Schedule.opening, found] using finite
  | chain =>
    cases found : s.lastToEnd? c.path with
    | none => simpa [Schedule.opening, found] using finite
    | some tail =>
      obtain ⟨member, ends⟩ := mem_of_lastToEnd? found
      simp only [Schedule.opening, found]
      split
      · exact (h.sound tail member).finite_endTime ends
      · exact finite

theorem forall_push {Q : Transition → Prop} {s : Schedule} (h : ∀ r ∈ s.transitions, Q r)
    {r : Transition} (hr : Q r) : ∀ x ∈ (s.push r).transitions, Q x := by
  intro x hx
  rcases List.mem_append.1 hx with old | new
  · exact h x old
  · rwa [List.mem_singleton.1 new]

theorem pairwise_push {R : Transition → Transition → Prop} {s : Schedule}
    (h : s.transitions.Pairwise R) {r : Transition} (last : ∀ a ∈ s.transitions, R a r) :
    (s.push r).transitions.Pairwise R := by
  refine List.pairwise_append.2 ⟨h, List.pairwise_singleton .., ?_⟩
  intro a ha b hb
  rw [List.mem_singleton.1 hb]
  exact last a ha

/-- A transition that carries the next number leaves the one after it free. -/
theorem fresh_push {s : Schedule} (fresh : ∀ r ∈ s.transitions, r.id < s.nextId) {r : Transition}
    (number : r.id = s.nextId) : ∀ x ∈ (s.push r).transitions, x.id < (s.push r).nextId :=
  forall_push (fun x hx => Nat.lt_succ_of_lt (fresh x hx)) (Nat.lt_succ_of_le (Nat.le_of_eq number))

theorem DistinctIds.push {s : Schedule} (distinct : DistinctIds s.transitions)
    (fresh : ∀ r ∈ s.transitions, r.id < s.nextId) {r : Transition} (number : r.id = s.nextId) :
    DistinctIds (s.push r).transitions := by
  refine pairwise_push distinct fun a ha => ?_
  rw [number]
  exact Nat.ne_of_lt (fresh a ha)

theorem Sound.push {s : Schedule} (h : s.Sound) {r : Transition} (hr : r.Sound)
    (number : r.id = s.nextId) : (s.push r).Sound where
  distinct := h.distinct.push h.fresh number
  fresh := fresh_push h.fresh number
  sound := forall_push h.sound hr
  base := by
    obtain ⟨b, hb, atRoot⟩ := h.base
    exact ⟨b, List.mem_append_left [r] hb, atRoot⟩

/-- Where nothing with an end stands on its path, a change interrupts nothing. -/
theorem interrupt_of_free {s : Schedule} {p : Path}
    (free : ∀ r ∈ s.transitions, r.isEndless = true ∨ r.path ≠ p) (time : Binary64) :
    (s.interrupt p time).transitions = s.transitions := by
  have stays : ∀ r ∈ s.transitions, isCutAt p time r = false := by
    intro r hr
    rcases free r hr with endless | apart
    · exact not_isCutAt_of_isEndless endless p time
    · rw [← Bool.not_eq_true]
      intro cut
      exact apart (isCutAt_path cut)
  have gone : s.transitions.filter (isCutAt p time) = [] :=
    List.filter_eq_nil_iff.2 fun r hr => by simp [stays r hr]
  have kept : s.transitions.filter (fun r => !isCutAt p time r) = s.transitions :=
    List.filter_eq_self.2 fun r hr => by simp [stays r hr]
  have nothing : byPrecedence [] = [] := by simp [byPrecedence]
  rw [interrupt_transitions, gone, kept, nothing]
  exact List.map_id' _

/-- Where nothing with an end stands on its path, a change starts from its own value. -/
theorem opening_of_free {s : Schedule} {c : Change}
    (free : ∀ r ∈ s.transitions, r.isEndless = true ∨ r.path ≠ c.path) (time : Binary64) :
    s.opening c time .override = (time, c.old) := by
  cases found : s.underWay? c.path time with
  | none => simp only [opening, found]
  | some r =>
    have candidate := (greatest?_spec found).1
    obtain ⟨onPath, running⟩ := List.mem_filter.1 candidate
    obtain ⟨member, path⟩ := List.mem_filter.1 onPath
    simp only [Bool.and_eq_true, Bool.not_eq_true'] at running
    rcases free r member with endless | apart
    · rw [endless] at running
      cases running.1
    · exact absurd (of_decide_eq_true path) apart

/-- The transition that a change becomes. -/
def opened (s : Schedule) (c : Change) (time : Binary64) (timing : Timing)
    (source : Option Nat) : Transition :=
  let (startTime, start) := s.opening c time timing.joining
  let duration := cleanDuration timing.duration
  { id := s.nextId, path := c.path, presentation := timing.presentation, start, finish := c.new
    startTime, endTime := startTime + duration, duration, easing := timing.easing
    switchPoint := timing.switchPoint, source, joining := timing.joining }

theorem opening_override_start (s : Schedule) (c : Change) (time : Binary64) :
    (s.opening c time .override).1 = time := by
  simp only [opening]
  split <;> rfl

theorem opened_startTime (s : Schedule) (c : Change) (time : Binary64) {timing : Timing}
    (source : Option Nat) (h : timing.joining = .override) :
    (s.opened c time timing source).startTime = time := by
  simp only [opened, h]
  exact opening_override_start s c time

theorem opened_endTime (s : Schedule) (c : Change) (time : Binary64) {timing : Timing}
    (source : Option Nat) (h : timing.joining = .override) :
    (s.opened c time timing source).endTime = time + cleanDuration timing.duration := by
  simp only [opened, h]
  rw [opening_override_start]

/-- A change that interrupts others is the newest transition. -/
theorem older_opened {s : Schedule} {c : Change} {time : Binary64} {timing : Timing}
    (source : Option Nat) (h : timing.joining = .override) {x : Transition}
    (number : x.id < s.nextId) (started : x.startTime.totalRank ≤ time.totalRank) :
    x.Older (s.opened c time timing source) := by
  rw [older_iff, opened_startTime s c time source h]
  show _ ∨ _ ∧ x.id < s.nextId
  omega

theorem insert_of_override (s : Schedule) (c : Change) (time : Binary64) {timing : Timing}
    (source : Option Nat) (h : timing.joining = .override) :
    s.insert c time timing source =
      (s.interrupt c.path time).push (s.opened c time timing source) := by
  simp only [Schedule.insert, opened, h]

theorem insert_of_chain (s : Schedule) (c : Change) (time : Binary64) {timing : Timing}
    (source : Option Nat) (h : timing.joining = .chain) :
    s.insert c time timing source = s.push (s.opened c time timing source) := by
  simp only [Schedule.insert, opened, h]

/-- What a change that joins a schedule leaves of it. -/
def cleared (s : Schedule) (c : Change) (time : Binary64) : Joining → Schedule
  | .override => s.interrupt c.path time
  | .chain => s

theorem insert_eq_push (s : Schedule) (c : Change) (time : Binary64) (timing : Timing)
    (source : Option Nat) :
    s.insert c time timing source =
      (s.cleared c time timing.joining).push (s.opened c time timing source) := by
  cases joining : timing.joining with
  | override => exact insert_of_override s c time source joining
  | chain => exact insert_of_chain s c time source joining

theorem cleared_nextId (s : Schedule) (c : Change) (time : Binary64) (joining : Joining) :
    (s.cleared c time joining).nextId = s.nextId := by
  cases joining <;> rfl

/-- What holds of a schedule with and without an interruption holds of what a change leaves. -/
theorem holds_cleared {P : Schedule → Prop} {s : Schedule} {c : Change} {time : Binary64} (h : P s)
    (cut : P (s.interrupt c.path time)) (joining : Joining) : P (s.cleared c time joining) := by
  cases joining with
  | override => exact cut
  | chain => exact h

/-- What folding keeps, an insertion keeps, if the new transition has it. -/
theorem forall_insert {Q : Transition → Prop} {s : Schedule}
    (keeps : ∀ g ∈ s.transitions, ∀ r, Q r → Q (handDown g r)) (h : ∀ r ∈ s.transitions, Q r)
    {c : Change} {time : Binary64} {timing : Timing} {source : Option Nat}
    (opened : Q (s.opened c time timing source)) :
    ∀ r ∈ (s.insert c time timing source).transitions, Q r := by
  have left : ∀ r ∈ (s.cleared c time timing.joining).transitions, Q r :=
    holds_cleared (P := fun left => ∀ r ∈ left.transitions, Q r) h
      (forall_interrupt keeps h c.path time) timing.joining
  rw [insert_eq_push]
  exact forall_push left opened

theorem Sound.insert {s : Schedule} (h : s.Sound) {c : Change} {time : Binary64}
    {timing : Timing} (finite : time.isFinite = true)
    (finiteDuration : timing.duration.isFinite = true) (old : WellFormedSlot c.old)
    (new : WellFormedSlot c.new) (source : Option Nat) :
    (s.insert c time timing source).Sound := by
  obtain ⟨finiteStart, start⟩ := h.opening finite old timing.joining
  have forward := Binary64.le_add_of_nonneg finiteStart (cleanDuration_isFinite finiteDuration)
    (cleanDuration_nonneg timing.duration)
  have sound : (s.opened c time timing source).Sound := ⟨start, new, finiteStart, forward⟩
  have left := holds_cleared h (h.interrupt c.path time) timing.joining
  rw [insert_eq_push]
  exact left.push sound (cleared_nextId ..).symm

/-! ## Pruning -/

theorem Sound.retire {s : Schedule} (h : s.Sound) {g : Transition} (hg : g.Sound) :
    Sound { s with transitions := Schedule.retire s.transitions g } where
  distinct := h.distinct.retire g
  fresh := by
    intro x hx
    obtain ⟨r, hr, -, rfl⟩ := mem_retire hx
    rw [handDown_id]
    exact h.fresh r hr
  sound := by
    intro x hx
    obtain ⟨r, hr, -, rfl⟩ := mem_retire hx
    exact hg.handDown (h.sound r hr)
  base := by
    obtain ⟨b, hb, atRoot, endless, start⟩ := h.base
    have stays : isShadowedBy g b = false := by simp [isShadowedBy, Path.isAbove, atRoot, Path.root]
    refine ⟨_, List.mem_map_of_mem (List.mem_filter.2 ⟨hb, by rw [stays]; rfl⟩), ?_, ?_, ?_⟩
    · rw [handDown_path, atRoot]
    · rw [isEndless, handDown_endTime]
      exact endless
    · rw [handDown_startTime, start]

theorem Sound.foldl_retire {s : Schedule} (h : s.Sound) {gone : List Transition}
    (hg : ∀ g ∈ gone, g.Sound) :
    Sound { s with transitions := gone.foldl Schedule.retire s.transitions } := by
  induction gone generalizing s with
  | nil => exact h
  | cons g gone ih =>
    exact ih (h.retire (hg g List.mem_cons_self)) fun x hx => hg x (List.mem_cons_of_mem g hx)

/-- Transitions other than roots without end can be taken out. -/
theorem Sound.filter {s : Schedule} (h : s.Sound) (keep : Transition → Bool)
    (endless : ∀ r, r.isEndless = true → keep r = true) :
    Sound { s with transitions := s.transitions.filter keep } where
  distinct := List.Pairwise.filter _ h.distinct
  fresh := fun r hr => h.fresh r (List.mem_filter.1 hr).1
  sound := fun r hr => h.sound r (List.mem_filter.1 hr).1
  base := by
    obtain ⟨b, hb, atRoot, isEndless, start⟩ := h.base
    exact ⟨b, List.mem_filter.2 ⟨hb, endless b isEndless⟩, atRoot, isEndless, start⟩

theorem Sound.prune {s : Schedule} (h : s.Sound) (time : Binary64) : (s.prune time).Sound := by
  have kept := h.filter (fun r => !r.isOverBefore time) fun r endless => by
    simp [isOverBefore, endless]
  have gone : ∀ g ∈ byPrecedence (s.transitions.filter (·.isOverBefore time)), g.Sound :=
    fun g hg => h.sound g (List.mem_filter.1 (mem_byPrecedence.1 hg)).1
  have left := kept.foldl_retire gone
  rw [← prune_transitions_foldl] at left
  exact ⟨left.distinct, left.fresh, left.sound, left.base⟩

/-! ## Runs -/

/-- A change of a schedule. -/
inductive Edit where
  | insert (change : Change) (time : Binary64) (timing : Timing) (source : Option Nat)
  | prune (time : Binary64)

/-- Makes a change of a schedule. -/
def edit (s : Schedule) : Edit → Schedule
  | .insert change time timing source => s.insert change time timing source
  | .prune time => s.prune time

/-- Makes changes one after another. -/
def edits (s : Schedule) (es : List Edit) : Schedule := es.foldl edit s

/-- An insertion of well-formed values at a finite time and for a finite duration. -/
def Edit.Sound : Edit → Prop
  | .insert change time timing _ =>
    time.isFinite = true ∧ timing.duration.isFinite = true ∧ WellFormedSlot change.old ∧
      WellFormedSlot change.new
  | .prune _ => True

instance : (e : Edit) → Decidable e.Sound
  | .insert change time timing _ =>
    inferInstanceAs (Decidable (time.isFinite = true ∧ timing.duration.isFinite = true ∧
      WellFormedSlot change.old ∧ WellFormedSlot change.new))
  | .prune _ => isTrue trivial

theorem Sound.edit {s : Schedule} (h : s.Sound) {e : Edit} (he : e.Sound) : (s.edit e).Sound := by
  cases e with
  | insert change time timing source =>
    obtain ⟨finite, finiteDuration, old, new⟩ := he
    exact h.insert finite finiteDuration old new source
  | prune time => exact h.prune time

theorem Sound.edits {s : Schedule} (h : s.Sound) {es : List Edit} (hes : ∀ e ∈ es, e.Sound) :
    (s.edits es).Sound := by
  induction es generalizing s with
  | nil => exact h
  | cons e es ih =>
    exact ih (h.edit (hes e List.mem_cons_self)) fun x hx => hes x (List.mem_cons_of_mem e hx)

/-- What can be done to a schedule: a table starts with a state, or a change is made. -/
inductive Act where
  | start (state : Tree) (source : Option Nat)
  | edit (e : Edit)

/-- Does one thing to a schedule. -/
def perform (s : Schedule) : Act → Schedule
  | .start state source => s.startWith state source
  | .edit e => s.edit e

/-- Does one thing after another. -/
def performAll (s : Schedule) (acts : List Act) : Schedule := acts.foldl perform s

end Schedule

end TableMotion
