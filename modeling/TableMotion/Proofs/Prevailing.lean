import TableMotion.Proofs.Relaying

/-!
# What interrupts prevails

A change that interrupts the transitions on its path comes last, and of those that start together
the one that was inserted last prevails. So the change is what its path shows from its time on, if
nothing on the path starts later. The one exception are the zeros, which are one time but two
starts: what started at `0` and is not cut short goes before a change at `-0`
(`prevailing?_insert_iff`).
-/

namespace TableMotion

namespace Transition

variable {a b : Transition} {time : Binary64}

/-- Of two transitions the one that was inserted later, and starts no earlier, prevails from its
start on, unless the zeros tell the starts apart. -/
theorem prevailsAt_iff_of_le (later : a.id < b.id) (le : a.startTime ≤ b.startTime)
    (started : b.startTime ≤ time) :
    b.prevailsAt a time = true ↔ ¬ (a.startTime = 0 ∧ b.startTime = Binary64.zero true) := by
  rw [prevailsAt_iff_of_started (Binary64.le_trans le started), older_iff]
  constructor
  · rintro ⟨-, older⟩ ⟨first, last⟩
    have zero : (0 : Binary64).totalRank = 0 := by decide +kernel
    have below : (Binary64.zero true).totalRank = -1 := by decide +kernel
    rw [first, last, zero, below] at older
    omega
  · intro apart
    refine ⟨started, ?_⟩
    by_contra newer
    exact apart (Binary64.eq_zeros_of_totalRank_lt le (by omega))

end Transition

namespace Schedule

open Transition

variable {s : Schedule} {p : Path} {c : Change} {time t : Binary64} {timing : Timing}
variable {source : Option Nat} {x : Transition}

/-- A transition on the path started at `0`, and a change at `-0` does not cut it short. -/
def HoldsByZero (s : Schedule) (p : Path) (time : Binary64) : Prop :=
  time = Binary64.zero true ∧ ∃ r ∈ s.onPath p, r.startTime = 0 ∧ isCutAt p time r = false

instance (s : Schedule) (p : Path) (time : Binary64) : Decidable (s.HoldsByZero p time) :=
  inferInstanceAs (Decidable (_ ∧ ∃ r ∈ s.onPath p, _))

/-- What stays on a path beside a change are the transitions that it does not cut short. -/
theorem exists_onPath_interrupt_iff {start : Binary64} :
    (∃ x ∈ (s.interrupt p time).onPath p, x.startTime = start) ↔
      ∃ r ∈ s.onPath p, r.startTime = start ∧ isCutAt p time r = false := by
  simp only [onPath, interrupt_transitions, List.mem_filter, decide_eq_true_eq]
  constructor
  · rintro ⟨x, ⟨hx, here⟩, starts⟩
    obtain ⟨r, hr, rfl⟩ := List.mem_map.1 hx
    obtain ⟨member, kept⟩ := List.mem_filter.1 hr
    rw [handAllDown_path] at here
    rw [handAllDown_startTime] at starts
    exact ⟨r, ⟨member, here⟩, starts, by simpa using kept⟩
  · rintro ⟨r, ⟨member, here⟩, starts, kept⟩
    refine ⟨_, ⟨List.mem_map_of_mem (List.mem_filter.2 ⟨member, by rw [kept]; rfl⟩), ?_⟩, ?_⟩
    · rw [handAllDown_path, here]
    · rw [handAllDown_startTime, starts]

/-- The path of a change that interrupts holds what is left of it and, behind that, the change. -/
theorem mem_onPath_insert (override : timing.joining = .override) :
    x ∈ (s.insert c time timing source).onPath c.path ↔
      x ∈ (s.interrupt c.path time).onPath c.path ∨ x = s.opened c time timing source := by
  rw [insert_of_override s c time source override]
  have here : (s.opened c time timing source).path = c.path := rfl
  simp [onPath, push, List.filter_append, here]

/-- From its time on a change that interrupts is drawn at its path, unless a zero holds it off. -/
theorem wins_opened_iff (numbered : s.Numbered) (override : timing.joining = .override)
    (begun : ∀ r ∈ s.onPath c.path, r.startTime ≤ time) (later : time ≤ t) :
    (s.insert c time timing source).Wins c.path t (s.opened c time timing source) ↔
      ¬ s.HoldsByZero c.path time := by
  have atTime := opened_startTime s c time source override
  have remains := remains_interrupt s c.path time
  have earlier : ∀ x ∈ (s.interrupt c.path time).transitions, x.id < s.nextId :=
    remains.forall (fun _ => Iff.rfl) numbered.fresh
  have started : ∀ x ∈ (s.interrupt c.path time).onPath c.path, x.startTime ≤ time :=
    (remains.filter fun _ => rfl).forall (fun _ => Iff.rfl) begun
  have prevails : ∀ x ∈ (s.interrupt c.path time).onPath c.path,
      (s.opened c time timing source).prevailsAt x t = true ↔
        ¬ (x.startTime = 0 ∧ time = Binary64.zero true) := by
    intro x hx
    have number : x.id < (s.opened c time timing source).id :=
      earlier x (List.mem_filter.1 hx).1
    have order : x.startTime ≤ (s.opened c time timing source).startTime := by
      rw [atTime]
      exact started x hx
    rw [prevailsAt_iff_of_le number order (by rwa [atTime]), atTime]
  rw [HoldsByZero, ← exists_onPath_interrupt_iff, Wins]
  constructor
  · rintro ⟨-, first⟩ ⟨zero, x, hx, starts⟩
    have other : x ≠ s.opened c time timing source := fun same =>
      Nat.ne_of_lt (earlier x (List.mem_filter.1 hx).1) (congrArg Transition.id same)
    have member : x ∈ (s.insert c time timing source).onPath c.path :=
      (mem_onPath_insert override).2 (Or.inl hx)
    exact (prevails x hx).1 (first x member other) ⟨starts, zero⟩
  · intro free
    refine ⟨(mem_onPath_insert override).2 (Or.inr rfl), fun x hx other => ?_⟩
    have left := ((mem_onPath_insert override).1 hx).resolve_right other
    refine (prevails x left).2 ?_
    rintro ⟨starts, zero⟩
    exact free ⟨zero, x, left, starts⟩

/-- In every run a change that interrupts comes last and has started at its time. If nothing on its
path starts later, it is what the path shows from then on, unless a transition that started at `0`
holds it off at `-0`. Of any two transitions that start together the later one prevails, but for
the same two zeros. -/
theorem prevailing?_insert_iff (acts : List Act) (c : Change) (time : Binary64)
    (number : time.isNaN = false) (timing : Timing) (override : timing.joining = .override)
    (source : Option Nat)
    (begun : ∀ r ∈ (empty.performAll acts).onPath c.path, r.startTime ≤ time) :
    let s := empty.performAll acts
    let s' := s.insert c time timing source
    let new := s.opened c time timing source
    (s'.transitions.getLast? = some new ∧ new.path = c.path ∧ new.finish = c.new ∧
      new.id = s.nextId ∧ new.startTime = time ∧ new.startTime ≤ time) ∧
    (∀ t, time ≤ t → (s'.prevailing? c.path t = some new ↔ ¬ s.HoldsByZero c.path time)) ∧
    ∀ a b : Transition, a.id < b.id → a.startTime ≤ b.startTime → b.startTime ≤ a.startTime →
      ∀ t, b.startTime ≤ t →
        (b.prevailsAt a t = true ↔ ¬ (a.startTime = 0 ∧ b.startTime = Binary64.zero true)) := by
  intro s s' new
  have numbered : s.Numbered := numbered_empty.performAll acts
  have distinct : DistinctIds s'.transitions :=
    (numbered.perform (.edit (.insert c time timing source))).distinct
  have starts : new.startTime = time := opened_startTime s c time source override
  refine ⟨⟨?_, rfl, rfl, rfl, starts, ?_⟩, fun t later => ?_, ?_⟩
  · show (s.insert c time timing source).transitions.getLast? = some new
    rw [insert_of_override s c time source override]
    exact List.getLast?_concat ..
  · rw [starts]
    exact Binary64.le_self number
  · rw [prevailing?_eq_some_iff distinct]
    exact wins_opened_iff numbered override begun later
  · intro a b later le _ t started
    exact prevailsAt_iff_of_le later le started

/-- A change of the table at `10`, which shows at once, and one at `-0`, which the first state, at
`0`, hides for good. -/
theorem prevailing?_insert_iff_baseline :
    let acts : List Act := [.start (.map []) none]
    let s := empty.performAll acts
    let c : Change := ⟨Path.root, some (.map []), some (.text "over")⟩
    let timing : Timing := { duration := 1, joining := .override }
    let inserted (time : Binary64) := s.insert c time timing none
    (inserted 10).prevailing? Path.root 10 = some (s.opened c 10 timing none) ∧
      (inserted (Binary64.zero true)).prevailing? Path.root 10 ≠
        some (s.opened c (Binary64.zero true) timing none) ∧
      (inserted (Binary64.zero true)).valueAt Path.root 10 = some (.map []) := by
  intro acts s c timing inserted
  have begun : ∀ r ∈ s.onPath c.path, r.startTime ≤ 10 := by decide +kernel
  have begunAtZero : ∀ r ∈ s.onPath c.path, r.startTime ≤ Binary64.zero true := by decide +kernel
  have free : ¬ s.HoldsByZero c.path 10 := by decide +kernel
  have held : s.HoldsByZero c.path (Binary64.zero true) := by decide +kernel
  obtain ⟨-, shows, -⟩ :=
    prevailing?_insert_iff acts c 10 (by decide +kernel) timing rfl none begun
  obtain ⟨-, hidden, -⟩ :=
    prevailing?_insert_iff acts c (Binary64.zero true) (by decide +kernel) timing rfl none
      begunAtZero
  have later : (Binary64.zero true) ≤ (10 : Binary64) := by decide +kernel
  exact ⟨(shows 10 (by decide +kernel)).2 free, mt (hidden 10 later).1 (not_not_intro held),
    by decide +kernel⟩

end Schedule

end TableMotion
