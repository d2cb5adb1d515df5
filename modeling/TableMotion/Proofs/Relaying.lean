import TableMotion.Proofs.Winning

/-!
# One path, one timeline

Where a path is always interrupted by changes at times that do not go back, or always chained, its
transitions with an end follow one another: each ends before the next one starts, so at most one is
under way. A change that interrupts takes over the value of the one that is under way. A chained one
takes over from the last one, save that among equal times the zeros decide: a transition that ends
or starts at `0` counts as later than one that does so at `-0` (`relays_performAll`).
-/

namespace TableMotion

namespace Binary64

/-- Where the total order is against the numeric one, it parts the zeros. -/
theorem eq_zeros_of_totalRank_lt {x y : Binary64} (le : x ≤ y) (less : y.totalRank < x.totalRank) :
    x = 0 ∧ y = zero true := by
  have last : y = zero true := by
    by_contra other
    have := totalRank_le_of_le le other
    omega
  subst last
  have rank := le.2.2
  have first : x.totalRank = 0 := by
    cases negative : x.negative <;>
      simp [Binary64.rank, totalRank, zero, negative] at rank less ⊢ <;> omega
  exact ⟨totalRank_injective (first.trans (by decide +kernel)), rfl⟩

end Binary64

namespace Schedule

open Transition

/-! ## Timelines -/

/-- The transitions of a path that have an end, in the order of their insertion. -/
def timeline (s : Schedule) (p : Path) : List Transition := (s.onPath p).filter fun r => !r.isEndless

variable {s s' : Schedule} {p : Path} {r : Transition}

theorem mem_timeline : r ∈ s.timeline p ↔ r ∈ s.transitions ∧ r.path = p ∧ r.isEndless = false := by
  simp [timeline, onPath, and_comm]

theorem underWay?_eq_greatest? (s : Schedule) (p : Path) (time : Binary64) :
    s.underWay? p time =
      greatest? Transition.precedence ((s.timeline p).filter (·.isUnderWayAt time)) := by
  rw [timeline, List.filter_filter]
  exact congrArg _ (List.filter_congr fun r _ => Bool.and_comm ..)

theorem Remains.filter {rs ss : List Transition} (k : Remains ss rs) {keep : Transition → Bool}
    (same : ∀ r, keep r.outline = keep r) : Remains (ss.filter keep) (rs.filter keep) := by
  have outlined : ∀ ts : List Transition,
      (ts.filter keep).map outline = (ts.map outline).filter keep := by
    intro ts
    rw [List.filter_map]
    exact congrArg _ (List.filter_congr fun r _ => (same r).symm)
  rw [Remains, outlined, outlined]
  exact List.Sublist.filter keep k

theorem Remains.timeline (k : Remains s'.transitions s.transitions) (p : Path) :
    Remains (s'.timeline p) (s.timeline p) :=
  (k.filter fun _ => rfl).filter fun _ => rfl

theorem timeline_push (s : Schedule) (r : Transition) (p : Path) :
    (s.push r).timeline p =
      s.timeline p ++ if r.path = p ∧ r.isEndless = false then [r] else [] := by
  by_cases onPath : r.path = p <;> cases endless : r.isEndless <;>
    simp [timeline, Schedule.onPath, Schedule.push, List.filter_append, onPath, endless]

/-- The transition runs from a finite time to a finite time that is not before it. -/
structure Spans (r : Transition) : Prop where
  start : r.startTime.isFinite = true
  finish : r.endTime.isFinite = true
  forward : r.startTime ≤ r.endTime

/-- Each transition ends before those behind it start, which were inserted later. -/
structure Relayed (rs : List Transition) : Prop where
  each : ∀ r ∈ rs, Spans r
  row : rs.Pairwise fun a b => a.id < b.id ∧ a.endTime ≤ b.startTime

variable {rs ss : List Transition}

theorem relayed_nil : Relayed [] := ⟨List.forall_mem_nil _, List.Pairwise.nil⟩

theorem Relayed.remains (h : Relayed rs) (k : Remains ss rs) : Relayed ss where
  each := k.forall (fun _ => ⟨fun ⟨a, b, c⟩ => ⟨a, b, c⟩, fun ⟨a, b, c⟩ => ⟨a, b, c⟩⟩) h.each
  row := k.pairwise (fun _ _ => Iff.rfl) h.row

theorem Relayed.snoc (h : Relayed rs) (spans : Spans r)
    (last : ∀ a ∈ rs, a.id < r.id ∧ a.endTime ≤ r.startTime) : Relayed (rs ++ [r]) where
  each := by
    intro x hx
    rcases List.mem_append.1 hx with old | new
    · exact h.each x old
    · rwa [List.mem_singleton.1 new]
  row := by
    refine List.pairwise_append.2 ⟨h.row, List.pairwise_singleton .., fun a ha b hb => ?_⟩
    rw [List.mem_singleton.1 hb]
    exact last a ha

theorem not_underWay_both {a b : Transition} {time : Binary64} (follows : a.endTime ≤ b.startTime)
    (underWay : a.isUnderWayAt time = true) : b.isUnderWayAt time = false := by
  simp only [isUnderWayAt, Bool.and_eq_true, decide_eq_true_eq, Bool.and_eq_false_iff,
    decide_eq_false_iff_not] at underWay ⊢
  refine Or.inl fun started => ?_
  have ends := underWay.2.2.2
  have starts := follows.2.2
  have startsB := started.2.2
  omega

/-- At most one is under way. -/
theorem Relayed.length_underWay (h : Relayed rs) (time : Binary64) :
    (rs.filter (·.isUnderWayAt time)).length ≤ 1 := by
  have row := h.row.filter (·.isUnderWayAt time)
  have underWay : ∀ r ∈ rs.filter (·.isUnderWayAt time), r.isUnderWayAt time = true :=
    fun r hr => (List.mem_filter.1 hr).2
  cases split : rs.filter (·.isUnderWayAt time) with
  | nil => exact Nat.zero_le 1
  | cons a rest =>
    cases rest with
    | nil => exact Nat.le_refl 1
    | cons b rest =>
      rw [split] at row underWay
      have follows := (List.rel_of_pairwise_cons row (List.mem_cons_self (a := b))).2
      have rests := not_underWay_both follows (underWay a List.mem_cons_self)
      rw [underWay b (by simp)] at rests
      cases rests

theorem Relayed.eq_of_underWay (h : Relayed rs) {time : Binary64} {a b : Transition} (ha : a ∈ rs)
    (hb : b ∈ rs) (underWayA : a.isUnderWayAt time = true) (underWayB : b.isUnderWayAt time = true) :
    a = b := by
  have hereA : a ∈ rs.filter (·.isUnderWayAt time) := List.mem_filter.2 ⟨ha, underWayA⟩
  have hereB : b ∈ rs.filter (·.isUnderWayAt time) := List.mem_filter.2 ⟨hb, underWayB⟩
  have one := Nat.le_antisymm (h.length_underWay time) (List.length_pos_of_mem hereA)
  obtain ⟨x, only⟩ := List.length_eq_one_iff.1 one
  rw [only, List.mem_singleton] at hereA hereB
  rw [hereA, hereB]

/-! ## Inserting on a path -/

variable {c : Change} {time : Binary64} {timing : Timing} {source : Option Nat}

/-- What a change leaves on its path has ended, if it had started. -/
theorem endTime_le_of_interrupt {a : Transition} (ha : a ∈ (s.interrupt p time).timeline p)
    (spans : Spans a) (started : a.startTime ≤ time) : a.endTime ≤ time := by
  obtain ⟨member, onPath, ends⟩ := mem_timeline.1 ha
  rw [interrupt_transitions] at member
  obtain ⟨x, hx, rfl⟩ := List.mem_map.1 member
  have stays := (List.mem_filter.1 hx).2
  rw [isEndless, handAllDown_endTime] at ends
  rw [handAllDown_path] at onPath
  rw [handAllDown_startTime] at started
  have notAfter : ¬ time < x.endTime := by
    simpa [isCutAt, isEndless, ends, onPath, started] using stays
  have number := Binary64.isNaN_eq_false_of_isFinite spans.finish
  rw [handAllDown_endTime] at number ⊢
  exact (Binary64.not_lt started.2.1 number).1 notAfter

/-- A chained change starts where all on its path have ended. -/
theorem Relayed.endTime_le_opening (h : Relayed (s.timeline c.path)) (finite : time.isFinite = true)
    {a : Transition} (ha : a ∈ s.timeline c.path) :
    a.endTime ≤ (s.opening c time .chain).1 := by
  obtain ⟨member, onPath, ends⟩ := mem_timeline.1 ha
  obtain ⟨tail, found, last⟩ := exists_lastToEnd? member ends
  rw [onPath] at found
  have tailSpans := h.each tail (greatest?_spec found).1
  have numberA := Binary64.isNaN_eq_false_of_isFinite (h.each a ha).finish
  have number := Binary64.isNaN_eq_false_of_isFinite tailSpans.finish
  have before := Binary64.le_of_totalRank_le numberA number last
  simp only [opening, found]
  split
  · exact before
  · rename_i passed
    exact Binary64.le_trans before
      ((Binary64.not_lt (Binary64.isNaN_eq_false_of_isFinite finite) number).1 passed)

theorem Relayed.opened_start (h : Relayed (s.timeline c.path)) (finite : time.isFinite = true)
    (timing : Timing) (source : Option Nat) :
    (s.opened c time timing source).startTime.isFinite = true := by
  show (s.opening c time timing.joining).1.isFinite = true
  rcases opening_start_cases s c time timing.joining with atOnce | ⟨tail, found, -, atEnd⟩
  · rwa [atOnce]
  · rw [atEnd]
    exact (h.each tail (greatest?_spec found).1).finish

theorem cleanDuration_isFinite_of_ne {d : Binary64} (lasts : d ≠ Binary64.infinity false) :
    (cleanDuration d).isFinite = true := by
  unfold cleanDuration
  split
  · exact Binary64.zero_isFinite
  · rename_i clean
    obtain ⟨number, notBelow⟩ := not_or.1 clean
    have nonneg := (Binary64.not_lt (by simpa using number) rfl).1 notBelow
    exact Binary64.isFinite_of_le Binary64.zero_isFinite nonneg lasts

/-- The transition that a change becomes runs behind what is left on its path. -/
theorem Relayed.insert (h : Relayed (s.timeline c.path)) (numbered : s.Numbered)
    (finite : time.isFinite = true) (lasts : timing.duration ≠ Binary64.infinity false)
    (ends : (s.opened c time timing source).endTime.isFinite = true)
    (begun : timing.joining = .override → ∀ r ∈ s.timeline c.path, r.startTime ≤ time) :
    Relayed ((s.cleared c time timing.joining).timeline c.path ++
      [s.opened c time timing source]) := by
  have remains := remains_cleared s c time timing.joining
  have left := h.remains (remains.timeline c.path)
  have start := h.opened_start finite timing source
  have forward : (s.opened c time timing source).startTime ≤
      (s.opened c time timing source).endTime :=
    Binary64.le_add_of_nonneg start (cleanDuration_isFinite_of_ne lasts)
      (cleanDuration_nonneg timing.duration)
  refine left.snoc ⟨start, ends, forward⟩ fun a ha => ⟨?_, ?_⟩
  · have fresh := (numbered.remains remains (cleared_nextId ..)).fresh a (mem_timeline.1 ha).1
    rwa [cleared_nextId] at fresh
  · show a.endTime ≤ (s.opening c time timing.joining).1
    cases joining : timing.joining with
    | override =>
      rw [joining] at ha remains
      rw [opening_override_start]
      have started : ∀ r ∈ (s.interrupt c.path time).timeline c.path, r.startTime ≤ time :=
        (remains.timeline c.path).forall (fun _ => Iff.rfl) (begun joining)
      exact endTime_le_of_interrupt ha (left.each a (by rwa [joining])) (started a ha)
    | chain =>
      rw [joining] at ha
      exact h.endTime_le_opening finite ha

/-! ## Taking over -/

/-- A zero decides that `r` counts as later than `last`, which comes behind it: `r` ends at `0` and
`last` at `-0`, or they end together and `r` starts at `0` and `last` at `-0`. -/
def OutlastsByZero (r last : Transition) : Prop :=
  r.endTime = 0 ∧ last.endTime = Binary64.zero true ∨
    r.endTime = last.endTime ∧ r.startTime = 0 ∧ last.startTime = Binary64.zero true

instance (r last : Transition) : Decidable (OutlastsByZero r last) :=
  inferInstanceAs (Decidable (_ ∨ _))

/-- How what a change becomes takes over from the timeline of its path. One that interrupts starts
at its time from the value of the transition under way. One that is chained starts at the end of
the timeline, if that is to come, and from where the last transition leads, or another one that
ends with it and outlasts it by a zero. -/
def TakesOver (rs : List Transition) (time : Binary64) (new : Transition) : Joining → Prop
  | .override => new.startTime = time ∧
      ∀ a ∈ rs, a.isUnderWayAt time = true → new.start = a.valueAt time
  | .chain => ∀ last, rs.getLast? = some last → time < last.endTime →
      last.endTime ≤ new.startTime ∧ new.startTime ≤ last.endTime ∧
        ∃ tail ∈ rs, new.startTime = tail.endTime ∧ new.start = tail.finish ∧
          (tail = last ↔ ∀ r ∈ rs, ¬ OutlastsByZero r last)

theorem Relayed.underWay?_eq (h : Relayed (s.timeline p)) {a : Transition}
    (ha : a ∈ s.timeline p) (underWay : a.isUnderWayAt time = true) :
    s.underWay? p time = some a := by
  rw [underWay?_eq_greatest?]
  obtain ⟨best, found⟩ := exists_greatest? Transition.precedence
    (List.mem_filter.2 ⟨ha, underWay⟩ : a ∈ (s.timeline p).filter (·.isUnderWayAt time))
  obtain ⟨member, underWayBest⟩ := List.mem_filter.1 (greatest?_spec found).1
  rw [found, h.eq_of_underWay member ha underWayBest underWay]

/-- What comes last in a timeline follows all the others. -/
theorem Relayed.follows_last (h : Relayed rs) {last : Transition} (atEnd : rs.getLast? = some last)
    (hr : r ∈ rs) : r = last ∨ r.id < last.id ∧ r.endTime ≤ last.startTime := by
  obtain ⟨before, rfl⟩ := List.getLast?_eq_some_iff.1 atEnd
  rcases List.mem_append.1 hr with earlier | same
  · exact Or.inr ((List.pairwise_append.1 h.row).2.2 r earlier last List.mem_cons_self)
  · exact Or.inl (List.mem_singleton.1 same)

/-- The last to end is the last of the timeline, unless a zero decides otherwise. -/
theorem Relayed.lastToEnd?_eq_last_iff (h : Relayed (s.timeline p)) {tail last : Transition}
    (found : s.lastToEnd? p = some tail) (atEnd : (s.timeline p).getLast? = some last) :
    tail = last ↔ ∀ r ∈ s.timeline p, ¬ OutlastsByZero r last := by
  have spec : ∀ r ∈ s.timeline p, r.endTime.totalRank < tail.endTime.totalRank ∨
      r.endTime.totalRank = tail.endTime.totalRank ∧ ¬ tail.Older r := by
    intro r hr
    obtain ⟨member, onPath, ends⟩ := mem_timeline.1 hr
    exact lastToEnd?_spec found member onPath ends
  constructor
  · rintro rfl r hr (⟨ends, endsLast⟩ | ⟨together, starts, startsLast⟩)
    · rcases spec r hr with less | ⟨equal, -⟩
      · rw [ends, endsLast] at less
        exact absurd less (by decide +kernel)
      · rw [ends, endsLast] at equal
        exact absurd equal (by decide +kernel)
    · rcases spec r hr with less | ⟨-, notNewer⟩
      · rw [together] at less
        exact Int.lt_irrefl _ less
      · apply notNewer
        rw [older_iff, starts, startsLast]
        exact Or.inl (by decide +kernel)
  · intro noZero
    have tailMember := (greatest?_spec found).1
    have lastMember := List.mem_of_getLast? atEnd
    by_contra other
    -- the tail comes before the last one, so only the total order can put it behind
    obtain ⟨earlier, follows⟩ := (h.follows_last atEnd tailMember).resolve_left other
    have forward := (h.each last lastMember).forward
    apply noZero tail tailMember
    rcases spec last lastMember with less | ⟨equal, notNewer⟩
    · exact Or.inl (Binary64.eq_zeros_of_totalRank_lt (Binary64.le_trans follows forward) less)
    · rw [older_iff, not_or] at notNewer
      have less : last.startTime.totalRank < tail.startTime.totalRank := by
        have := notNewer.2
        omega
      have order := Binary64.le_trans (h.each tail tailMember).forward follows
      exact Or.inr ⟨(Binary64.totalRank_injective equal).symm,
        Binary64.eq_zeros_of_totalRank_lt order less⟩

theorem Relayed.takesOver (h : Relayed (s.timeline c.path)) (timing : Timing)
    (source : Option Nat) :
    TakesOver (s.timeline c.path) time (s.opened c time timing source) timing.joining := by
  cases joining : timing.joining with
  | override =>
    refine ⟨opened_startTime s c time source joining, fun a ha underWay => ?_⟩
    simp only [opened, joining, opening, h.underWay?_eq ha underWay]
  | chain =>
    intro last atEnd waits
    have lastMember := List.mem_of_getLast? atEnd
    obtain ⟨member, onPath, ends⟩ := mem_timeline.1 lastMember
    obtain ⟨tail, found, latest⟩ := exists_lastToEnd? member ends
    rw [onPath] at found
    have tailMember := (greatest?_spec found).1
    have number := Binary64.isNaN_eq_false_of_isFinite (h.each tail tailMember).finish
    have later := Binary64.le_of_totalRank_le waits.2.1 number latest
    have notLater : tail.endTime ≤ last.endTime := by
      rcases h.follows_last atEnd tailMember with rfl | ⟨-, follows⟩
      · exact ⟨number, number, Int.le_refl _⟩
      · exact Binary64.le_trans follows (h.each last lastMember).forward
    have waitsForTail : time < tail.endTime :=
      ⟨waits.1, number, Int.lt_of_lt_of_le waits.2.2 later.2.2⟩
    have start : (s.opened c time timing source).startTime = tail.endTime := by
      simp only [opened, joining, opening, found, if_pos waitsForTail]
    rw [start]
    refine ⟨later, notLater, tail, tailMember, rfl, ?_, h.lastToEnd?_eq_last_iff found atEnd⟩
    simp only [opened, joining, opening, found, if_pos waitsForTail]

/-! ## Runs -/

/-- The time at which an act is to insert on a path. -/
def Act.requested? (p : Path) : Act → Option Binary64
  | .edit (.insert c time _ _) => if c.path = p then some time else none
  | _ => none

theorem Act.requested?_eq_some_iff {a : Act} {time : Binary64} :
    a.requested? p = some time ↔
      ∃ c timing source, a = .edit (.insert c time timing source) ∧ c.path = p := by
  constructor
  · intro requested
    cases a with
    | start => cases requested
    | edit e =>
      cases e with
      | insert c now timing source =>
        obtain ⟨onPath, same⟩ := Option.ite_none_right_eq_some.1 requested
        obtain rfl := Option.some.inj same
        exact ⟨c, timing, source, rfl, onPath⟩
      | prune => cases requested
  · rintro ⟨c, timing, source, rfl, rfl⟩
    exact if_pos rfl

/-- The times at which a run is to insert on a path. -/
def requestedTimes (p : Path) (acts : List Act) : List Binary64 :=
  acts.filterMap (Act.requested? p)

/-- What an act inserts on a path joins those before it in one way, at a finite time, for a time
that is not endless, and comes to a finite end. -/
def Relays (s : Schedule) (p : Path) (joining : Joining) : Act → Prop
  | .edit (.insert c time timing source) => c.path = p →
      timing.joining = joining ∧ time.isFinite = true ∧
        timing.duration ≠ Binary64.infinity false ∧
        (s.opened c time timing source).endTime.isFinite = true
  | _ => True

instance (s : Schedule) (p : Path) (joining : Joining) : (a : Act) → Decidable (s.Relays p joining a)
  | .edit (.insert _ _ _ _) => inferInstanceAs (Decidable (_ → _ ∧ _ ∧ _ ∧ _))
  | .edit (.prune _) => isTrue trivial
  | .start _ _ => isTrue trivial

/-- Each act of a run does so. -/
def RelaysAll (p : Path) (joining : Joining) : Schedule → List Act → Prop
  | _, [] => True
  | s, a :: acts => s.Relays p joining a ∧ RelaysAll p joining (s.perform a) acts

instance (p : Path) (joining : Joining) :
    (s : Schedule) → (acts : List Act) → Decidable (RelaysAll p joining s acts)
  | _, [] => isTrue trivial
  | s, a :: acts =>
    have := instDecidableRelaysAll p joining (s.perform a) acts
    inferInstanceAs (Decidable (_ ∧ _))

variable {joining : Joining} {a : Act} {acts : List Act}

theorem performAll_append (s : Schedule) (acts more : List Act) :
    s.performAll (acts ++ more) = (s.performAll acts).performAll more := List.foldl_append ..

theorem relaysAll_append {more : List Act} :
    RelaysAll p joining s (acts ++ more) ↔
      RelaysAll p joining s acts ∧ RelaysAll p joining (s.performAll acts) more := by
  induction acts generalizing s with
  | nil => simp [RelaysAll, performAll]
  | cons a acts ih =>
    rw [List.cons_append, RelaysAll, RelaysAll, ih, and_assoc]
    rfl

theorem relaysAll_snoc :
    RelaysAll p joining s (acts ++ [a]) ↔
      RelaysAll p joining s acts ∧ (s.performAll acts).Relays p joining a := by
  simp [relaysAll_append, RelaysAll]

/-- What is inserted elsewhere, begun or pruned adds nothing to a timeline. -/
theorem remains_perform (elsewhere : a.requested? p = none) :
    Remains ((s.perform a).timeline p) (s.timeline p) := by
  cases a with
  | start state source =>
    rw [perform, startWith, timeline_push, if_neg (by simp [isEndless]), List.append_nil]
    exact Remains.refl _
  | edit e =>
    cases e with
    | insert c time timing source =>
      have apart : c.path ≠ p := by simpa [Act.requested?] using elsewhere
      rw [perform, edit, insert_eq_push, timeline_push, if_neg fun h => apart h.1, List.append_nil]
      exact (remains_cleared s c time timing.joining).timeline p
    | prune time => exact (remains_prune s time).timeline p

/-- An insertion with an end adds to the timeline of its path. -/
theorem timeline_insert {c : Change} {time : Binary64} {timing : Timing} {source : Option Nat}
    (ends : (s.opened c time timing source).endTime.isFinite = true) :
    (s.insert c time timing source).timeline c.path =
      (s.cleared c time timing.joining).timeline c.path ++ [s.opened c time timing source] := by
  have notEndless : (s.opened c time timing source).isEndless = false := by
    rw [isEndless, decide_eq_false_iff_not]
    intro endless
    rw [endless] at ends
    cases ends
  rw [insert_eq_push, timeline_push, if_pos ⟨rfl, notEndless⟩]

/-- The timeline of a path goes on through a run, and starts at requested times if it is always
interrupted. -/
theorem relayed_performAll (relays : RelaysAll p joining empty acts)
    (paced : joining = .override → (requestedTimes p acts).Pairwise (· ≤ ·)) :
    Relayed ((empty.performAll acts).timeline p) ∧
      (joining = .override →
        ∀ r ∈ (empty.performAll acts).timeline p, r.startTime ∈ requestedTimes p acts) := by
  -- the starts have to be requested times, which the next one does not go behind
  induction acts using List.reverseRecOn with
  | nil => exact ⟨relayed_nil, fun _ => List.forall_mem_nil _⟩
  | append_singleton acts a ih =>
    obtain ⟨former, relay⟩ := relaysAll_snoc.1 relays
    have times : requestedTimes p (acts ++ [a]) =
        requestedTimes p acts ++ (a.requested? p).toList := by
      rw [requestedTimes, List.filterMap_append]
      cases requested : a.requested? p <;> simp [requestedTimes, requested]
    rw [times] at paced ⊢
    obtain ⟨h, starts⟩ := ih former fun override => (List.pairwise_append.1 (paced override)).1
    have split : empty.performAll (acts ++ [a]) = (empty.performAll acts).perform a :=
      performAll_append ..
    rw [split]
    cases requested : a.requested? p with
    | none =>
      have remains := remains_perform (s := empty.performAll acts) requested
      refine ⟨h.remains remains, fun override => ?_⟩
      rw [Option.toList_none, List.append_nil]
      exact remains.forall (fun _ => Iff.rfl) (starts override)
    | some now =>
      obtain ⟨c, timing, source, rfl, rfl⟩ := Act.requested?_eq_some_iff.1 requested
      obtain ⟨joins, finite, lasts, ends⟩ := relay rfl
      subst joins
      have inserted := timeline_insert ends
      rw [requested, Option.toList_some] at paced
      have numbered := numbered_empty.performAll acts
      rw [perform, edit, inserted]
      refine ⟨h.insert numbered finite lasts ends fun override r hr => ?_, fun override r hr => ?_⟩
      · exact (List.pairwise_append.1 (paced override)).2.2 _ (starts override r hr) now
          List.mem_cons_self
      · rw [Option.toList_some]
        rcases List.mem_append.1 hr with left | new
        · have remains := remains_cleared (empty.performAll acts) c now timing.joining
          exact List.mem_append_left _
            ((remains.timeline c.path).forall (fun _ => Iff.rfl) (starts override) r left)
        · rw [List.mem_singleton.1 new, opened_startTime _ c now source override]
          exact List.mem_append_right _ List.mem_cons_self

/-- The timeline of a path goes on through every such run, with one transition under way at most,
and each change that is inserted there takes over from it. -/
theorem relays_performAll (p : Path) (joining : Joining) (acts : List Act)
    (relays : RelaysAll p joining empty acts)
    (paced : joining = .override → (requestedTimes p acts).Pairwise (· ≤ ·)) :
    Relayed ((empty.performAll acts).timeline p) ∧
    (∀ time,
      (((empty.performAll acts).timeline p).filter (·.isUnderWayAt time)).length ≤ 1) ∧
    ∀ (before : List Act) (c : Change) (time : Binary64) (timing : Timing) (source : Option Nat),
      before ++ [.edit (.insert c time timing source)] <+: acts → c.path = p →
        let s := empty.performAll before
        let new := s.opened c time timing source
        (s.insert c time timing source).transitions.getLast? = some new ∧
          TakesOver (s.timeline p) time new joining := by
  obtain ⟨relayed, -⟩ := relayed_performAll relays paced
  refine ⟨relayed, relayed.length_underWay, ?_⟩
  rintro before c time timing source ⟨after, rfl⟩ rfl s new
  obtain ⟨upTo, -⟩ := relaysAll_append.1 relays
  obtain ⟨former, relay⟩ := relaysAll_snoc.1 upTo
  obtain ⟨joins, -⟩ := relay rfl
  have pacedBefore : joining = .override → (requestedTimes c.path before).Pairwise (· ≤ ·) := by
    intro override
    have inFront : (requestedTimes c.path before).Sublist (requestedTimes c.path
        (before ++ [.edit (.insert c time timing source)] ++ after)) := by
      rw [List.append_assoc, requestedTimes, requestedTimes, List.filterMap_append]
      exact List.sublist_append_left ..
    exact List.Pairwise.sublist inFront (paced override)
  have h := (relayed_performAll former pacedBefore).1
  refine ⟨?_, ?_⟩
  · rw [insert_eq_push]
    exact List.getLast?_concat ..
  · rw [← joins]
    exact h.takesOver timing source

/-- A pot that waits for a change which ends at `0`, though the last one ends at `-0`, and one that
is interrupted halfway. -/
theorem relays_performAll_pot :
    let insert (joining : Joining) (old new : Tree) (time duration : Binary64) : Act :=
      .edit (.insert ⟨["pot"], some old, some new⟩ time { duration, joining } none)
    let chained : List Act :=
      [insert .chain (.text "none") (.text "some") (-5) 5,
        insert .chain (.text "some") (.text "more") (Binary64.zero true) (Binary64.zero true),
        .edit (.prune (-9)), insert .chain (.text "more") (.text "all") (-3) 10]
    let interrupted : List Act :=
      [insert .override (.text "none") (.text "some") 0 100,
        insert .override (.text "some") (.text "more") 60 100]
    let ends (r : Transition) := (r.startTime, r.endTime, r.start)
    ((empty.performAll chained).timeline ["pot"]).map ends =
        [(-5, 0, some (.text "none")),
          (Binary64.zero true, Binary64.zero true, some (.text "some")),
          (0, 10, some (.text "some"))] ∧
      Relayed ((empty.performAll chained).timeline ["pot"]) ∧
      ((empty.performAll interrupted).timeline ["pot"]).map ends =
        [(60, 160, some (.text "some"))] ∧
      Relayed ((empty.performAll interrupted).timeline ["pot"]) := by
  intro insert chained interrupted ends
  have relays : RelaysAll ["pot"] .chain empty chained := by decide +kernel
  have relaysInterrupted : RelaysAll ["pot"] .override empty interrupted := by decide +kernel
  have times : (requestedTimes ["pot"] interrupted).Pairwise (· ≤ ·) := by decide +kernel
  exact ⟨by decide +kernel, (relays_performAll ["pot"] .chain chained relays nofun).1,
    by decide +kernel, (relays_performAll _ _ interrupted relaysInterrupted fun _ => times).1⟩

end Schedule

end TableMotion
