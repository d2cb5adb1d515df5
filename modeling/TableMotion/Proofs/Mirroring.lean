import TableMotion.Proofs.Arriving

/-!
# Schedules that mirror a state

With one duration for all changes, transitions end in the order of their starts. A schedule that
mirrors a state carries it, lists included: insertions that interrupt others keep that
(`Mirrors.insert`), and so does a pruning that loses nothing (`Mirrors.prune`); after any other
pruning the frame lacks a node for good (`Mirrors.lacks`).
-/

namespace TableMotion

namespace Schedule

open TableMotion.Tree Transition

/-- A transition that holds a first state for good. -/
structure IsBase (b : Transition) : Prop where
  atRoot : b.path = Path.root
  endless : b.isEndless = true
  start : b.startTime = 0
  same : b.start = b.finish

/-- A schedule at a time mirrors a state: after the first state come transitions that all last
equally long, and together they carry the state. -/
structure Mirrors (s : Schedule) (now lasting : Binary64) (state : Tree) : Prop where
  sound : s.Sound
  carries : Carries s.transitions state
  started : ∀ r ∈ s.transitions, r.startTime.totalRank ≤ now.totalRank
  uniform : ∃ b rest, s.transitions = b :: rest ∧ IsBase b ∧
    ∀ r ∈ rest, r.endTime = r.startTime + lasting ∧ r.endTime.isFinite = true

variable {s : Schedule} {now lasting time : Binary64} {state : Tree}

theorem Mirrors.later (h : s.Mirrors now lasting state) {later : Binary64}
    (le : now.totalRank ≤ later.totalRank) : s.Mirrors later lasting state :=
  { h with started := fun r hr => Int.le_trans (h.started r hr) le }

theorem carries_singleton {b : Transition} (atRoot : b.path = Path.root)
    (finish : b.finish = some state) (regular : state.Regular) : Carries [b] state where
  ordered := List.pairwise_singleton ..
  regular := by
    intro r hr
    rw [List.mem_singleton.1 hr, finish]
    exact slot_some.2 regular
  stateRegular := regular
  leads := by
    intro x
    have split : x = b.path ++ x := by rw [atRoot]; rfl
    have newest := outcome_of_newest (r := b) (q := x) [] (List.forall_mem_nil _)
    rwa [← split, finish] at newest
  behind := by
    intro g hg removal
    rw [List.mem_singleton.1 hg, finish] at removal
    cases removal
  place := by
    intro g hg removal
    rw [List.mem_singleton.1 hg, finish] at removal
    cases removal

theorem mirrors_startWith (nothing : s.transitions = []) (regular : state.Regular)
    (source : Option Nat) (le : (0 : Binary64).totalRank ≤ now.totalRank) :
    (s.startWith state source).Mirrors now lasting state where
  sound := sound_startWith nothing regular.wellFormed source
  carries := by
    rw [startWith_transitions nothing]
    exact carries_singleton rfl rfl regular
  started := by
    intro r hr
    rw [startWith_transitions nothing] at hr
    rw [List.mem_singleton.1 hr]
    exact le
  uniform := by
    refine ⟨_, [], startWith_transitions nothing state source,
      ⟨rfl, decide_eq_true rfl, rfl, rfl⟩, fun r hr => ?_⟩
    cases hr

/-! ## Insertions -/

theorem isBase_handAllDown {b : Transition} (h : IsBase b) (gone : List Transition) :
    IsBase (handAllDown gone b) where
  atRoot := by rw [handAllDown_path, h.atRoot]
  endless := by
    rw [isEndless, handAllDown_endTime]
    exact h.endless
  start := by rw [handAllDown_startTime, h.start]
  same := by
    apply holds_handAllDown (Q := fun r => r.start = r.finish)
    · intro g _ r same
      exact handDown_same g same
    · exact h.same

theorem exists_interrupted (s : Schedule) (p : Path) (time : Binary64) :
    ∃ gone, (s.interrupt p time).transitions =
        (s.transitions.filter fun r => !isCutAt p time r).map (handAllDown gone) ∧
      Cuts s.transitions p (fun r => !isCutAt p time r) gone := by
  refine ⟨byPrecedence (s.transitions.filter (isCutAt p time)), interrupt_transitions s p time,
    ?_, ?_⟩
  · intro r _ cut
    exact isCutAt_path (by simpa using cut)
  · intro g hg
    obtain ⟨member, cut⟩ := List.mem_filter.1 (mem_byPrecedence.1 hg)
    exact ⟨member, isCutAt_path cut⟩

/-- An insertion that interrupts others mirrors the changed state. -/
theorem Mirrors.insert (h : s.Mirrors now lasting state) {c : Change} {state' : Tree}
    {timing : Timing} (finite : now.isFinite = true) (override : timing.joining = .override)
    (finiteDuration : timing.duration.isFinite = true)
    (lasts : cleanDuration timing.duration = lasting) (ends : (now + lasting).isFinite = true)
    (old : RegularSlot c.old) (new : RegularSlot c.new) (step : Step state c state')
    (source : Option Nat) : (s.insert c now timing source).Mirrors now lasting state' := by
  have sound := h.sound.insert finite finiteDuration (old.imp fun _ => Regular.wellFormed)
    (new.imp fun _ => Regular.wellFormed) source
  have atNow := opened_startTime s c now source override
  have atEnd := opened_endTime s c now source override
  obtain ⟨gone, kept, cuts⟩ := exists_interrupted s c.path now
  have newest : ∀ x ∈ s.transitions, x.Older (s.opened c now timing source) := by
    intro x hx
    exact older_opened source override (h.sound.fresh x hx) (h.started x hx)
  have inserted : (s.insert c now timing source).transitions =
      joined s.transitions (fun r => !isCutAt c.path now r) gone
        (s.opened c now timing source) := by
    rw [insert_of_override s c now source override, joined, ← kept]
    rfl
  refine ⟨sound, ?_, ?_, ?_⟩
  · rw [inserted]
    exact h.carries.insert step new cuts rfl rfl newest
  · rw [inserted]
    intro r hr
    rcases mem_joined.1 hr with ⟨x, hx, rfl⟩ | rfl
    · rw [handAllDown_startTime]
      exact h.started x (List.mem_filter.1 hx).1
    · exact Int.le_of_eq (by rw [atNow])
  · obtain ⟨b, rest, split, base, lastsRest⟩ := h.uniform
    -- the first state is never cut short
    have stays : (!isCutAt c.path now b) = true := by
      rw [not_isCutAt_of_isEndless base.endless, Bool.not_false]
    refine ⟨handAllDown gone b, joined rest (fun r => !isCutAt c.path now r) gone
      (s.opened c now timing source), ?_, isBase_handAllDown base gone, ?_⟩
    · rw [inserted, split]
      exact joined_cons stays
    · intro r hr
      rcases mem_joined.1 hr with ⟨x, hx, rfl⟩ | rfl
      · rw [handAllDown_endTime, handAllDown_startTime]
        exact lastsRest x (List.mem_filter.1 hx).1
      · rw [atNow, atEnd, lasts]
        exact ⟨rfl, ends⟩

/-! ## Prunings -/

/-- Where what passes a test comes first, a row is what passes and then what does not. -/
theorem filter_append_filter_not {rs : List Transition} {test : Transition → Bool}
    (first : rs.Pairwise fun a b => test b = true → test a = true) :
    rs.filter test ++ rs.filter (fun r => !test r) = rs := by
  induction first with
  | nil => rfl
  | @cons a rs closed _ ih =>
    by_cases passes : test a = true
    · simp [passes, ih]
    · have none : ∀ r ∈ rs, test r = false := fun r hr => by
        simpa [passes] using closed r hr
      have empty : rs.filter test = [] := List.filter_eq_nil_iff.2 fun r hr => by simp [none r hr]
      have all : rs.filter (fun r => !test r) = rs :=
        List.filter_eq_self.2 fun r hr => by simp [none r hr]
      simp [passes, empty, all]

/-- Transitions that last equally long are over in the order of their starts. -/
theorem Mirrors.over_first (h : s.Mirrors now lasting state) (finite : lasting.isFinite = true)
    {b : Transition} {rest : List Transition} (split : s.transitions = b :: rest)
    (lasts : ∀ r ∈ rest, r.endTime = r.startTime + lasting ∧ r.endTime.isFinite = true)
    (time : Binary64) :
    rest.Pairwise fun a c => c.isOverBefore time = true → a.isOverBefore time = true := by
  have ordered : rest.Pairwise Older := by
    have all := h.carries.ordered
    rw [split] at all
    exact (List.pairwise_cons.1 all).2
  refine List.Pairwise.imp_of_mem ?_ ordered
  intro a c ha hc older ended
  simp only [isOverBefore, Bool.and_eq_true, decide_eq_true_eq] at ended ⊢
  have member : ∀ r ∈ rest, r ∈ s.transitions := by
    intro r hr
    rw [split]
    exact List.mem_cons_of_mem b hr
  have finiteA := (h.sound.sound a (member a ha)).finite
  have finiteC := (h.sound.sound c (member c hc)).finite
  have starts : a.startTime.totalRank ≤ c.startTime.totalRank := by
    rw [older_iff] at older
    omega
  -- equal durations: what starts first ends first
  have le : a.endTime ≤ c.endTime := by
    rw [(lasts a ha).1, (lasts c hc).1]
    exact Binary64.add_le_add_right finiteA finiteC finite
      (Binary64.le_of_totalRank_le (Binary64.isNaN_eq_false_of_isFinite finiteA)
        (Binary64.isNaN_eq_false_of_isFinite finiteC) starts)
  refine ⟨?_, le.1, ended.2.2.1, Int.lt_of_le_of_lt le.2.2 ended.2.2.2⟩
  rw [Bool.not_eq_true', isEndless, decide_eq_false_iff_not]
  intro endless
  have ends := (lasts a ha).2
  rw [endless] at ends
  cases ends

theorem foldl_retire_cons {b : Transition} (atRoot : b.path = Path.root)
    {kept gone : List Transition} (newer : ∀ g ∈ gone, ∀ r ∈ kept, ¬ r.Older g) :
    gone.foldl retire (b :: kept) = handAllDown gone b :: kept := by
  induction gone generalizing b with
  | nil => rfl
  | cons g gone ih =>
    have stays : isShadowedBy g b = false := by
      simp [isShadowedBy, Path.isAbove, atRoot, Path.root]
    rw [List.foldl_cons, retire_cons, stays, if_neg Bool.false_ne_true,
      retire_of_not_older (newer g List.mem_cons_self), handAllDown_cons]
    exact ih (by rw [handDown_path, atRoot]) fun x hx => newer x (List.mem_cons_of_mem g hx)

/-- A pruning folds what is over into the first state and leaves the rest. -/
theorem Mirrors.prune_transitions (h : s.Mirrors now lasting state)
    (finite : lasting.isFinite = true) (time : Binary64) :
    ∃ b gone kept, s.transitions = b :: (gone ++ kept) ∧ IsBase b ∧
      (∀ r ∈ gone ++ kept, r.endTime = r.startTime + lasting ∧ r.endTime.isFinite = true) ∧
      (s.prune time).transitions = handAllDown gone b :: kept ∧
      s.losses time = lost (gone ++ kept) b gone := by
  obtain ⟨b, rest, split, base, lasts⟩ := h.uniform
  have parts := filter_append_filter_not (h.over_first finite split lasts time)
  have ordered := h.carries.ordered
  rw [split] at ordered
  have staysB : b.isOverBefore time = false := by simp [isOverBefore, base.endless]
  -- what goes is folded into what is older, and of what stays that is the first state only
  refine ⟨b, _, _, by rw [parts]; exact split, base, by rwa [parts], ?_, ?_⟩
  · have whole : ([] ++ s.transitions).Pairwise Older := h.carries.ordered
    have taken := foldl_retire_eq [] whole time
    have keeps : (b :: rest).filter (fun r => !r.isOverBefore time) =
        b :: rest.filter fun r => !r.isOverBefore time :=
      List.filter_cons_of_pos (by simp [staysB])
    have leaves : (b :: rest).filter (·.isOverBefore time) = rest.filter (·.isOverBefore time) :=
      List.filter_cons_of_neg (by simp [staysB])
    rw [List.nil_append] at taken
    rw [Schedule.prune_transitions h.carries.ordered time, settled, ← taken, split, keeps, leaves]
    apply foldl_retire_cons base.atRoot
    intro g hg r hr
    rw [← parts] at ordered
    exact ((List.pairwise_append.1 (List.pairwise_cons.1 ordered).2).2.2 g hg r hr).asymm
  · simp only [losses, split, parts]

/-- A pruning that loses nothing still mirrors the state. -/
theorem Mirrors.prune (h : s.Mirrors now lasting state) (finite : lasting.isFinite = true)
    {time : Binary64} (nothing : s.losses time = []) :
    (s.prune time).Mirrors now lasting state := by
  obtain ⟨b, gone, kept, split, base, lasts, pruned, losing⟩ := h.prune_transitions finite time
  rw [losing] at nothing
  have carries := h.carries
  rw [split] at carries
  refine ⟨h.sound.prune time, ?_, ?_, ?_⟩
  · rw [pruned]
    exact carries.prune base.atRoot nothing
  · intro r hr
    rw [pruned] at hr
    rcases List.mem_cons.1 hr with rfl | hr
    · rw [handAllDown_startTime]
      exact h.started b (by rw [split]; exact List.mem_cons_self)
    · apply h.started r
      rw [split]
      exact List.mem_cons_of_mem b (List.mem_append_right gone hr)
  · exact ⟨_, kept, pruned, isBase_handAllDown base gone, fun r hr =>
      lasts r (List.mem_append_right gone hr)⟩

/-! ## Frames -/

/-- The transitions that have an end are over before a time. -/
def IsOverBy (rs : List Transition) (time : Binary64) : Prop :=
  ∀ r ∈ rs, r.endTime.isFinite = true → r.endTime < time

/-- What is over shows its finish, and so does the first state. -/
theorem values_of_isOverBy {b : Transition} {rest : List Transition} (base : IsBase b)
    (sound : ∀ r ∈ b :: rest, r.Sound) (ends : ∀ r ∈ rest, r.endTime.isFinite = true)
    (ended : IsOverBy (b :: rest) time) (nonneg : 0 ≤ time) :
    ∀ r ∈ b :: rest, r.startTime ≤ time ∧ r.valueAt time = r.finish := by
  intro r hr
  rcases List.mem_cons.1 hr with rfl | inRest
  · rw [base.start]
    exact ⟨nonneg, valueAt_of_eq base.same time⟩
  · have past := ended r hr (ends r inRest)
    have forward := (sound r hr).forward
    exact ⟨Binary64.le_trans forward (Binary64.le_of_lt past), valueAt_of_over forward past⟩

/-- Once all transitions are over the frame is the state that is mirrored. -/
theorem Mirrors.root_frameAt (h : s.Mirrors now lasting state) (ended : IsOverBy s.transitions time)
    (nonneg : 0 ≤ time) : (s.frameAt time).root = some state := by
  obtain ⟨b, rest, split, base, lasts⟩ := h.uniform
  have values := values_of_isOverBy base (split ▸ h.sound.sound) (fun r hr => (lasts r hr).2)
    (split ▸ ended) nonneg
  rw [← split] at values
  refine Frame.root_ofTransitions_of_carries h.carries h.sound.distinct ⟨b, ?_, base.atRoot⟩
    (fun r hr => (values r hr).1) fun r hr => (values r hr).2
  rw [split]
  exact List.mem_cons_self

/-- After a pruning that loses something the frame lacks a node of the state, once all is over. -/
theorem Mirrors.lacks (h : s.Mirrors now lasting state) (finite : lasting.isFinite = true)
    {cutoff : Binary64} (something : s.losses cutoff ≠ [])
    (ended : IsOverBy (s.prune cutoff).transitions time) (nonneg : 0 ≤ time) :
    ∃ p, Lacks ((s.prune cutoff).frameAt time).root state p := by
  obtain ⟨b, gone, kept, split, base, lasts, pruned, losing⟩ := h.prune_transitions finite cutoff
  rw [losing] at something
  have carries := h.carries
  rw [split] at carries
  obtain ⟨p, lacks, spares⟩ := (carries.foldsInto_base base.atRoot).lacks_of_lost something
  have sound := h.sound.prune cutoff
  rw [pruned] at ended
  have values := values_of_isOverBy (isBase_handAllDown base gone) (pruned ▸ sound.sound)
    (fun r hr => (lasts r (List.mem_append_right gone hr)).2) ended nonneg
  refine ⟨p, ?_⟩
  show Lacks (Frame.ofTransitions (s.prune cutoff).transitions time).root state p
  rw [pruned]
  exact Frame.lacks_root_ofTransitions (pruned ▸ sound.distinct)
    (isBase_handAllDown base gone).atRoot lacks spares (fun r hr => (values r hr).1)
    fun r hr => (values r hr).2

end Schedule

end TableMotion
