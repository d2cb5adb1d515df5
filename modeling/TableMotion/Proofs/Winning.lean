import Mathlib.Data.List.Pairwise
import TableMotion.Proofs.Outranking

/-!
# One winner, whatever the order of storage

At every time the question which of two transitions is drawn is answered by a strict order, total
where no two transitions share a number. So on each path one transition prevails over all others,
for a query of the path as in a frame, and the order in which a schedule stores its transitions
does not show (`winner_perm`).
-/

namespace TableMotion

open TableMotion.Frame

variable {time : Binary64} {rs ss : List Transition}

namespace Frame

theorem winners_perm (distinct : Schedule.DistinctIds ss) (p : rs.Perm ss) :
    winners time rs = winners time ss := by
  apply (pathOrdered_winners time rs).ext (pathOrdered_winners time ss)
  intro w
  rw [mem_winners_iff (distinct.perm p.symm), mem_winners_iff distinct]
  simp only [p.mem_iff]

/-- A frame looks at the winners only. -/
theorem ofTransitions_perm (distinct : Schedule.DistinctIds ss) (p : rs.Perm ss) :
    ofTransitions rs time = ofTransitions ss time := by
  simp only [ofTransitions, winners_perm distinct p]

end Frame

namespace Schedule

variable {s : Schedule} {p : Path} {r : Transition}

/-- `r` stands on the path and is drawn rather than every other one there. -/
def Wins (s : Schedule) (p : Path) (time : Binary64) (r : Transition) : Prop :=
  r ∈ s.onPath p ∧ ∀ x ∈ s.onPath p, x ≠ r → r.prevailsAt x time = true

theorem wins_iff : s.Wins p time r ↔ r ∈ s.onPath p ∧ ∀ x ∈ s.onPath p, Beats time r x := by
  refine and_congr_right fun _ => forall₂_congr fun x _ => ?_
  rw [Beats, ne_comm, ne_eq, ← or_iff_not_imp_left]

theorem Wins.unique {w : Transition} (hr : s.Wins p time r) (hw : s.Wins p time w) : r = w := by
  rw [wins_iff] at hr hw
  exact (hr.2 w hw.1).antisymm (hw.2 r hr.1)

theorem exists_prevailing? (occupied : s.onPath p ≠ []) (time : Binary64) :
    ∃ r, s.prevailing? p time = some r := by
  unfold prevailing?
  split
  · contradiction
  · exact ⟨_, rfl⟩

theorem wins_of_prevailing? (distinct : DistinctIds s.transitions)
    (found : s.prevailing? p time = some r) : s.Wins p time r := by
  have apart : DistinctIds (s.onPath p) := List.Pairwise.filter _ distinct
  rw [wins_iff]
  unfold prevailing? at found
  split at found
  · cases found
  · rename_i first rest onPath
    rw [onPath] at apart ⊢
    obtain rfl := Option.some.inj found
    apply foldl_picks (R := fun x w => Beats time w x) Beats.refl (fun h k => k.trans h)
    intro x hx y hy
    have symm : Std.Symm fun a b : Transition => a.id ≠ b.id := ⟨fun _ _ => Ne.symm⟩
    by_cases prevails : y.prevailsAt x time = true
    · exact Or.inr ⟨if_pos prevails, Or.inr prevails⟩
    · refine Or.inl ⟨if_neg prevails, ?_⟩
      by_cases same : x = y
      · exact Or.inl same
      · exact beats_of_not_prevailsAt (apart.forall hy hx (Ne.symm same)) prevails

/-- What the query of a path picks is the winner. -/
theorem prevailing?_eq_some_iff (distinct : DistinctIds s.transitions) :
    s.prevailing? p time = some r ↔ s.Wins p time r := by
  constructor
  · exact wins_of_prevailing? distinct
  · intro wins
    obtain ⟨w, found⟩ := exists_prevailing? (List.ne_nil_of_mem wins.1) time
    rw [found, (wins_of_prevailing? distinct found).unique wins]

/-- A frame takes on each path what the query of the path picks. -/
theorem mem_winners_iff_prevailing? (distinct : DistinctIds s.transitions) :
    r ∈ winners time s.transitions ↔ s.prevailing? r.path time = some r := by
  rw [mem_winners_iff distinct, prevailing?_eq_some_iff distinct, wins_iff]
  simp [onPath]

variable {s' : Schedule}

theorem onPath_perm (h : s'.transitions.Perm s.transitions) (p : Path) :
    (s'.onPath p).Perm (s.onPath p) := h.filter _

theorem prevailing?_perm (distinct : DistinctIds s.transitions)
    (h : s'.transitions.Perm s.transitions) (p : Path) (time : Binary64) :
    s'.prevailing? p time = s.prevailing? p time := by
  ext r
  rw [prevailing?_eq_some_iff (distinct.perm h.symm), prevailing?_eq_some_iff distinct]
  simp only [Wins, (onPath_perm h p).mem_iff]

/-- At every time the order of what is drawn is strict, and total for different numbers; with it
each occupied path has one winner, and another order of storage changes neither the winner of a
path nor a frame nor the value at a path. In every run the numbers are different. -/
theorem winner_perm (s : Schedule) (distinct : DistinctIds s.transitions) (time : Binary64) :
    (∀ a : Transition, a.prevailsAt a time = false) ∧
    (∀ a b c : Transition, a.prevailsAt b time = true → b.prevailsAt c time = true →
      a.prevailsAt c time = true) ∧
    (∀ a b : Transition, a.id ≠ b.id →
      a.prevailsAt b time = true ∨ b.prevailsAt a time = true) ∧
    (∀ p r, s.prevailing? p time = some r ↔ s.Wins p time r) ∧
    (∀ p, s.onPath p ≠ [] → ∃! r, s.Wins p time r) ∧
    (∀ s' : Schedule, s'.transitions.Perm s.transitions →
      s'.frameAt time = s.frameAt time ∧ ∀ p, s'.prevailing? p time = s.prevailing? p time ∧
        s'.valueAt p time = s.valueAt p time) ∧
    ∀ acts, DistinctIds (empty.performAll acts).transitions := by
  refine ⟨fun a => Transition.prevailsAt_self a time, fun _ _ _ => Transition.prevailsAt_trans,
    fun _ _ different => Transition.prevailsAt_or_prevailsAt different time,
    fun _ _ => prevailing?_eq_some_iff distinct, ?_, ?_, ?_⟩
  · intro p occupied
    obtain ⟨r, found⟩ := exists_prevailing? occupied time
    have wins := wins_of_prevailing? distinct found
    exact ⟨r, wins, fun w other => other.unique wins⟩
  · intro s' h
    refine ⟨ofTransitions_perm distinct h, fun p => ⟨prevailing?_perm distinct h p time, ?_⟩⟩
    have bearing : DistinctIds (s.transitions.filter (bearsOn p)) := List.Pairwise.filter _ distinct
    rw [valueAt, valueAt, ofTransitions_perm bearing (h.filter _)]
  · intro acts
    exact (numbered_empty.performAll acts).distinct

/-- A pot with two transitions that have started, at the two zeros, and one that waits. -/
theorem winner_perm_zeros :
    let transition (id : Nat) (path : Path) (finish : Tree) (time : Binary64) : Transition :=
      { id, path, presentation := .become, start := some .null, finish := some finish
        startTime := time, endTime := time + 1, duration := 1, easing := .linear
        switchPoint := Binary64.half, source := none, joining := .chain }
    let root := transition 0 [] (.map [("pot", .null)]) (-5)
    let former := transition 1 ["pot"] (.text "former") 0
    let latter := transition 2 ["pot"] (.text "latter") (Binary64.zero true)
    let waiting := transition 3 ["pot"] (.text "waiting") 20
    let s : Schedule := ⟨[root, former, latter, waiting], 4, 0, 0⟩
    let s' : Schedule := ⟨[waiting, latter, former, root], 4, 0, 0⟩
    s.Wins ["pot"] 10 former ∧ s'.prevailing? ["pot"] 10 = some former ∧
      s'.frameAt 10 = s.frameAt 10 ∧
      (s.frameAt 10).root = some (.map [("pot", .text "former")]) := by
  intro transition root former latter waiting s s'
  have distinct : DistinctIds s.transitions := by decide
  have reversed : s'.transitions.Perm s.transitions := List.reverse_perm s.transitions
  obtain ⟨-, -, -, picks, -, same, -⟩ := winner_perm s distinct 10
  obtain ⟨frame, paths⟩ := same s' reversed
  have found : s.prevailing? ["pot"] 10 = some former := by decide +kernel
  exact ⟨(picks _ _).1 found, (paths _).1.trans found, frame, by decide +kernel⟩

end Schedule

end TableMotion
