import TableMotion.Schedule

/-!
# The precedence of transitions

Precedence orders transitions by their starts in the total order of numbers and then by their
numbers, so it is a strict order, and total where no two transitions share a number. `byPrecedence`
gives the one listing of the transitions in that order (`eq_byPrecedence`), which is why filtering
and every change that keeps starts and numbers can be moved through it.
-/

namespace TableMotion

namespace Transition

/-- `a` has the lower precedence. -/
def Older (a b : Transition) : Prop := a.precedence b = .lt

instance (a b : Transition) : Decidable (a.Older b) :=
  inferInstanceAs (Decidable (a.precedence b = .lt))

theorem older_iff {a b : Transition} :
    a.Older b ↔ a.startTime.totalRank < b.startTime.totalRank ∨
      a.startTime.totalRank = b.startTime.totalRank ∧ a.id < b.id := by
  simp only [Older, precedence, Binary64.totalCompare, Ordering.then_eq_lt, Int.compare_eq_lt,
    Int.compare_eq_eq, Nat.compare_eq_lt]

theorem precedence_eq_gt_iff {a b : Transition} : a.precedence b = .gt ↔ b.Older a := by
  simp only [older_iff, precedence, Binary64.totalCompare, Ordering.then_eq_gt, Int.compare_eq_gt,
    Int.compare_eq_eq, Nat.compare_eq_gt]
  omega

theorem Older.irrefl (a : Transition) : ¬ a.Older a := by
  rw [older_iff]
  omega

theorem Older.trans {a b c : Transition} (h : a.Older b) (k : b.Older c) : a.Older c := by
  rw [older_iff] at h k ⊢
  omega

theorem Older.asymm {a b : Transition} (h : a.Older b) : ¬ b.Older a :=
  fun k => Older.irrefl a (h.trans k)

/-- Of two transitions with different numbers one is older. -/
theorem older_or_older {a b : Transition} (different : a.id ≠ b.id) : a.Older b ∨ b.Older a := by
  rw [older_iff, older_iff]
  omega

instance : Std.TransCmp precedence :=
  inferInstanceAs (Std.TransCmp (compareLex (compareOn fun r : Transition => r.startTime.totalRank)
    (compareOn fun r : Transition => r.id)))

/-- By the end first. -/
instance : Std.TransCmp fun a b : Transition =>
    (a.endTime.totalCompare b.endTime).then (a.precedence b) :=
  inferInstanceAs (Std.TransCmp
    (compareLex (compareOn fun r : Transition => r.endTime.totalRank) precedence))

/-- Precedence looks at starts and numbers only. -/
theorem Older.congr {a a' b b' : Transition} (ha : a'.startTime = a.startTime) (ia : a'.id = a.id)
    (hb : b'.startTime = b.startTime) (ib : b'.id = b.id) : a'.Older b' ↔ a.Older b := by
  simp only [older_iff, ha, ia, hb, ib]

/-! ## What is drawn at a time -/

section Prevailing

variable {a b c : Transition} {time : Binary64}

/-- The newest of those that have started goes first, and the oldest of those that have not. -/
theorem prevailsAt_iff :
    a.prevailsAt b time = true ↔
      a.startTime ≤ time ∧ (b.startTime ≤ time → b.Older a) ∨
        ¬ a.startTime ≤ time ∧ ¬ b.startTime ≤ time ∧ a.Older b := by
  by_cases ha : a.startTime ≤ time <;> by_cases hb : b.startTime ≤ time <;>
    simp [prevailsAt, ha, hb, precedence_eq_gt_iff, Older]

theorem prevailsAt_iff_of_started (started : b.startTime ≤ time) :
    a.prevailsAt b time = true ↔ a.startTime ≤ time ∧ b.Older a := by
  simp [prevailsAt_iff, started]

theorem prevailsAt_self (a : Transition) (time : Binary64) : a.prevailsAt a time = false := by
  rw [← Bool.not_eq_true, prevailsAt_iff]
  rintro (⟨started, older⟩ | ⟨-, -, older⟩)
  · exact Older.irrefl a (older started)
  · exact Older.irrefl a older

theorem prevailsAt_trans (h : a.prevailsAt b time = true) (k : b.prevailsAt c time = true) :
    a.prevailsAt c time = true := by
  rw [prevailsAt_iff] at h k ⊢
  rcases h with ⟨startedA, olderB⟩ | ⟨waitsA, waitsB, olderA⟩
  · refine Or.inl ⟨startedA, fun startedC => ?_⟩
    rcases k with ⟨startedB, olderC⟩ | ⟨-, waitsC, -⟩
    · exact (olderC startedC).trans (olderB startedB)
    · exact absurd startedC waitsC
  · rcases k with ⟨startedB, -⟩ | ⟨-, waitsC, olderB⟩
    · exact absurd startedB waitsB
    · exact Or.inr ⟨waitsA, waitsC, olderA.trans olderB⟩

theorem not_prevailsAt_of_prevailsAt (h : a.prevailsAt b time = true) :
    b.prevailsAt a time = false := by
  rw [← Bool.not_eq_true]
  intro k
  have both := prevailsAt_trans h k
  rw [prevailsAt_self] at both
  cases both

/-- Of two transitions with different numbers one is drawn. -/
theorem prevailsAt_or_prevailsAt (different : a.id ≠ b.id) (time : Binary64) :
    a.prevailsAt b time = true ∨ b.prevailsAt a time = true := by
  rw [prevailsAt_iff, prevailsAt_iff]
  by_cases ha : a.startTime ≤ time <;> by_cases hb : b.startTime ≤ time <;>
    simp [ha, hb, older_or_older different, older_or_older different.symm]

end Prevailing

end Transition

namespace Schedule

open Transition

/-- No two transitions have the same number. -/
def DistinctIds (rs : List Transition) : Prop := rs.Pairwise fun a b => a.id ≠ b.id

instance (rs : List Transition) : Decidable (DistinctIds rs) :=
  inferInstanceAs (Decidable (rs.Pairwise fun a b => a.id ≠ b.id))

theorem DistinctIds.perm {rs ss : List Transition} (h : DistinctIds rs) (p : rs.Perm ss) :
    DistinctIds ss :=
  p.pairwise h fun different => Ne.symm different

theorem byPrecedence_perm (rs : List Transition) : (byPrecedence rs).Perm rs :=
  List.mergeSort_perm ..

theorem mem_byPrecedence {rs : List Transition} {r : Transition} :
    r ∈ byPrecedence rs ↔ r ∈ rs := (byPrecedence_perm rs).mem_iff

theorem isLE_precedence_iff {a b : Transition} :
    (a.precedence b).isLE = true ↔ ¬ b.Older a := by
  rw [← precedence_eq_gt_iff]
  cases a.precedence b <;> simp [Ordering.isLE]

theorem byPrecedence_sorted (rs : List Transition) :
    (byPrecedence rs).Pairwise fun a b => (a.precedence b).isLE = true := by
  apply List.pairwise_mergeSort
  · intro a b c h k
    rw [isLE_precedence_iff, older_iff] at h k ⊢
    omega
  · intro a b
    rw [Bool.or_eq_true, isLE_precedence_iff, isLE_precedence_iff, older_iff, older_iff]
    omega

theorem pairwise_byPrecedence {rs : List Transition} (distinct : DistinctIds rs) :
    (byPrecedence rs).Pairwise Older := by
  have apart := distinct.perm (byPrecedence_perm rs).symm
  apply ((byPrecedence_sorted rs).and apart).imp
  rintro a b ⟨notAbove, different⟩
  rcases older_or_older different with older | newer
  · exact older
  · exact absurd newer (isLE_precedence_iff.1 notAbove)

section Rows

variable {R : Transition → Transition → Prop} {before behind : List Transition}
variable {r y : Transition}

/-- In a row, what comes before one of it stands on its left. -/
theorem mem_left_of_row (asymm : ∀ {a b}, R a b → ¬ R b a)
    (row : (before ++ r :: behind).Pairwise R) (hy : y ∈ before ++ r :: behind) (first : R y r) :
    y ∈ before := by
  rcases List.mem_append.1 hy with left | hy
  · exact left
  · rcases List.mem_cons.1 hy with rfl | right
    · exact absurd first (asymm first)
    · have later := List.rel_of_pairwise_cons (List.pairwise_append.1 row).2.1 right
      exact absurd first (asymm later)

/-- In a row, what comes after one of it stands on its right. -/
theorem mem_right_of_row (asymm : ∀ {a b}, R a b → ¬ R b a)
    (row : (before ++ r :: behind).Pairwise R) (hy : y ∈ before ++ r :: behind) (last : R r y) :
    y ∈ behind := by
  rcases List.mem_append.1 hy with left | hy
  · have earlier := (List.pairwise_append.1 row).2.2 y left r List.mem_cons_self
    exact absurd last (asymm earlier)
  · rcases List.mem_cons.1 hy with rfl | right
    · exact absurd last (asymm last)
    · exact right

end Rows

/-- Of two transitions of an ordered listing one is older. -/
theorem eq_or_older_of_pairwise {rs : List Transition} (ordered : rs.Pairwise Older)
    {a b : Transition} (ha : a ∈ rs) (hb : b ∈ rs) : a = b ∨ a.Older b ∨ b.Older a := by
  induction ordered with
  | nil => cases ha
  | cons older _ ih =>
    rcases List.mem_cons.1 ha with rfl | ha'
    · rcases List.mem_cons.1 hb with rfl | hb'
      · exact Or.inl rfl
      · exact Or.inr (Or.inl (older b hb'))
    · rcases List.mem_cons.1 hb with rfl | hb'
      · exact Or.inr (Or.inr (older a ha'))
      · exact ih ha' hb'

/-- Only one listing goes from the oldest to the newest. -/
theorem eq_byPrecedence {rs ss : List Transition} (ordered : ss.Pairwise Older)
    (p : ss.Perm rs) : ss = byPrecedence rs := by
  have sorted : ss.Pairwise fun a b => (a.precedence b).isLE = true :=
    ordered.imp fun older => isLE_precedence_iff.2 older.asymm
  refine List.Perm.eq_of_pairwise ?_ sorted (byPrecedence_sorted rs)
    (p.trans (byPrecedence_perm rs).symm)
  intro a b ha hb h k
  have hb' : b ∈ ss := p.mem_iff.2 (mem_byPrecedence.1 hb)
  rcases eq_or_older_of_pairwise ordered ha hb' with same | older | newer
  · exact same
  · exact absurd older (isLE_precedence_iff.1 k)
  · exact absurd newer (isLE_precedence_iff.1 h)

theorem byPrecedence_of_pairwise {rs : List Transition} (ordered : rs.Pairwise Older) :
    byPrecedence rs = rs :=
  (eq_byPrecedence ordered (List.Perm.refl rs)).symm

theorem byPrecedence_filter {rs : List Transition} (distinct : DistinctIds rs)
    (keep : Transition → Bool) : byPrecedence (rs.filter keep) = (byPrecedence rs).filter keep :=
  (eq_byPrecedence ((pairwise_byPrecedence distinct).filter keep)
    ((byPrecedence_perm rs).filter keep)).symm

end Schedule

end TableMotion
