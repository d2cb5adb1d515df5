import TableMotion.Proofs.Overwriting
import TableMotion.Proofs.Precedence

/-!
# Runs of writes

`Schedule.writeAll` writes the values of transitions one after another. In trees without lists a
write that a later one covers can be left out (`writeAll_uncovered`), and two orders of the same
writes give the same tree where any two writes that change places are independent
(`writeAll_perm`).
-/

namespace TableMotion

namespace Schedule

open TableMotion.Tree

variable {value : Transition → Option Tree}

/-- Writes the values of transitions in turn, each at its path. -/
def writeAll (value : Transition → Option Tree) (s : Option Tree) (rs : List Transition) :
    Option Tree :=
  rs.foldl (fun s r => putBelow s r.path (value r)) s

@[simp] theorem writeAll_nil (s : Option Tree) : writeAll value s [] = s := rfl

@[simp] theorem writeAll_cons (s : Option Tree) (r : Transition) (rs : List Transition) :
    writeAll value s (r :: rs) = writeAll value (putBelow s r.path (value r)) rs := rfl

theorem writeAll_append (s : Option Tree) (rs ss : List Transition) :
    writeAll value s (rs ++ ss) = writeAll value (writeAll value s rs) ss := by
  simp [writeAll]

theorem writeAll_snoc (s : Option Tree) (rs : List Transition) (r : Transition) :
    writeAll value s (rs ++ [r]) = putBelow (writeAll value s rs) r.path (value r) := by
  simp [writeAll]

theorem writeAll_congr {other : Transition → Option Tree} {rs : List Transition}
    (same : ∀ r ∈ rs, value r = other r) (s : Option Tree) :
    writeAll value s rs = writeAll other s rs := by
  induction rs generalizing s with
  | nil => rfl
  | cons r rs ih =>
    rw [writeAll_cons, writeAll_cons, same r List.mem_cons_self]
    exact ih (fun x hx => same x (List.mem_cons_of_mem r hx)) _

/-- The values of all transitions are plain. -/
def PlainValues (value : Transition → Option Tree) (rs : List Transition) : Prop :=
  ∀ r ∈ rs, PlainSlot (value r)

theorem PlainValues.head {r : Transition} {rs : List Transition}
    (h : PlainValues value (r :: rs)) : PlainSlot (value r) := h r List.mem_cons_self

theorem PlainValues.tail {r : Transition} {rs : List Transition}
    (h : PlainValues value (r :: rs)) : PlainValues value rs :=
  fun x hx => h x (List.mem_cons_of_mem r hx)

theorem PlainValues.writeAll {rs : List Transition} (h : PlainValues value rs) {s : Option Tree}
    (hs : PlainSlot s) : PlainSlot (writeAll value s rs) := by
  induction rs generalizing s with
  | nil => exact hs
  | cons r rs ih => exact ih h.tail (hs.putBelow h.head r.path)

/-! ## Trees that differ below one path -/

/-- The trees differ at a path and below it at most. -/
def AgreeOff (p : Path) (s u : Option Tree) : Prop := putBelow s p none = putBelow u p none

theorem AgreeOff.refl (p : Path) (s : Option Tree) : AgreeOff p s s := rfl

theorem AgreeOff.symm {p : Path} {s u : Option Tree} (h : AgreeOff p s u) : AgreeOff p u s :=
  Eq.symm h

theorem AgreeOff.trans {p : Path} {s u w : Option Tree} (h : AgreeOff p s u)
    (k : AgreeOff p u w) : AgreeOff p s w := Eq.trans h k

/-- A write under a path makes a difference there only. -/
theorem agreeOff_putBelow {p : Path} {s v : Option Tree} (hs : PlainSlot s) (hv : PlainSlot v)
    {q : Path} (under : p.covers q = true) : AgreeOff p (putBelow s q v) s := by
  obtain ⟨rest, rfl⟩ := Path.covers_iff.1 under
  exact putBelow_hides hs hv p rest none

/-- A write above the difference removes it. -/
theorem AgreeOff.putBelow_eq {p : Path} {s u : Option Tree} (hs : PlainSlot s) (hu : PlainSlot u)
    (h : AgreeOff p s u) {q : Path} (above : q.covers p = true) (v : Option Tree) :
    putBelow s q v = putBelow u q v := by
  obtain ⟨rest, rfl⟩ := Path.covers_iff.1 above
  calc putBelow s q v
      = putBelow (putBelow s (q ++ rest) none) q v := (putBelow_hides hs slot_none ..).symm
    _ = putBelow (putBelow u (q ++ rest) none) q v := by rw [h]
    _ = putBelow u q v := putBelow_hides hu slot_none ..

theorem AgreeOff.putBelow {p : Path} {s u v : Option Tree} (hs : PlainSlot s) (hu : PlainSlot u)
    (hv : PlainSlot v) (h : AgreeOff p s u) (q : Path) :
    AgreeOff p (putBelow s q v) (putBelow u q v) := by
  by_cases above : q.covers p = true
  · rw [AgreeOff, h.putBelow_eq hs hu above v]
  · by_cases under : p.covers q = true
    · exact (agreeOff_putBelow hs hv under).trans (h.trans (agreeOff_putBelow hu hv under).symm)
    · simp only [Bool.not_eq_true] at above under
      unfold AgreeOff
      rw [putBelow_comm hs hv slot_none above under,
        putBelow_comm hu hv slot_none above under, h]

/-- Once a write covers the difference, nothing of it is left. -/
theorem AgreeOff.writeAll_eq {p : Path} {s u : Option Tree} (hs : PlainSlot s) (hu : PlainSlot u)
    (h : AgreeOff p s u) {rs : List Transition} (plain : PlainValues value rs)
    (covered : ∃ r ∈ rs, r.path.covers p = true) :
    Schedule.writeAll value s rs = Schedule.writeAll value u rs := by
  induction rs generalizing s u with
  | nil => obtain ⟨r, hr, _⟩ := covered; cases hr
  | cons r rs ih =>
    by_cases above : r.path.covers p = true
    · rw [writeAll_cons, writeAll_cons, h.putBelow_eq hs hu above]
    · have later : ∃ x ∈ rs, x.path.covers p = true := by
        obtain ⟨x, hx, covers⟩ := covered
        rcases List.mem_cons.1 hx with rfl | hx
        · exact absurd covers above
        · exact ⟨x, hx, covers⟩
      exact ih (hs.putBelow plain.head _) (hu.putBelow plain.head _)
        (h.putBelow hs hu plain.head r.path) plain.tail later

/-! ## Leaving out what is covered -/

/-- The writes that no later one covers. -/
def uncovered : List Transition → List Transition
  | [] => []
  | r :: rest =>
    if rest.any fun x => x.path.covers r.path then uncovered rest else r :: uncovered rest

theorem uncovered_sublist (rs : List Transition) : (uncovered rs).Sublist rs := by
  induction rs with
  | nil => exact List.Sublist.refl []
  | cons r rs ih =>
    unfold uncovered
    split
    · exact ih.cons r
    · exact ih.cons_cons r

theorem mem_uncovered {rs : List Transition} (ordered : rs.Pairwise Transition.Older)
    {r : Transition} :
    r ∈ uncovered rs ↔ r ∈ rs ∧ ∀ x ∈ rs, r.Older x → x.path.covers r.path = false := by
  induction ordered with
  | nil => simp [uncovered]
  | @cons a rs older ordered ih =>
    have notNewer : ∀ x ∈ rs, ¬ x.Older a := fun x hx => (older x hx).asymm
    have notItself := Transition.Older.irrefl a
    have absent : a ∉ rs := fun ha => notItself (older a ha)
    unfold uncovered
    split
    · rename_i covered
      rw [ih]
      simp only [List.any_eq_true] at covered
      grind
    · rename_i free
      simp only [List.any_eq_true, not_exists, not_and, Bool.not_eq_true] at free
      rw [List.mem_cons, ih]
      grind

theorem writeAll_uncovered {rs : List Transition} (plain : PlainValues value rs) {s : Option Tree}
    (hs : PlainSlot s) : writeAll value s (uncovered rs) = writeAll value s rs := by
  induction rs generalizing s with
  | nil => rfl
  | cons r rs ih =>
    unfold uncovered
    split
    · rename_i covered
      rw [ih plain.tail hs, writeAll_cons]
      have difference : AgreeOff r.path s (putBelow s r.path (value r)) :=
        (agreeOff_putBelow hs plain.head (Path.covers_iff.2 ⟨[], by simp⟩)).symm
      apply difference.writeAll_eq hs (hs.putBelow plain.head _) plain.tail
      simpa [List.any_eq_true] using covered
    · rw [writeAll_cons, writeAll_cons, ih plain.tail (hs.putBelow plain.head _)]

/-! ## Changing the order -/

/-- The order of two writes does not matter. -/
def Independent (value : Transition → Option Tree) (a b : Transition) : Prop :=
  ∀ s, PlainSlot s →
    putBelow (putBelow s a.path (value a)) b.path (value b) =
      putBelow (putBelow s b.path (value b)) a.path (value a)

theorem independent_of_apart {a b : Transition} (ha : PlainSlot (value a))
    (hb : PlainSlot (value b)) (hab : a.path.covers b.path = false)
    (hba : b.path.covers a.path = false) : Independent value a b :=
  fun _ hs => putBelow_comm hs ha hb hab hba

/-- What is written under a node that is taken out is never seen. -/
theorem independent_of_removal {a b : Transition} (hb : PlainSlot (value b))
    (removal : value a = none) (above : a.path.isAbove b.path = true) : Independent value a b := by
  intro s hs
  obtain ⟨key, rest, below⟩ := Path.isAbove_iff.1 above
  rw [removal, below, putBelow_append hs slot_none, putBelow_none, putBelow_hides hs hb]

/-- A write that is independent of all those before it can be made first. -/
theorem writeAll_move_first {r : Transition} {rs : List Transition} (plain : PlainValues value rs)
    (h : ∀ x ∈ rs, Independent value r x) (ss : List Transition) {s : Option Tree}
    (hs : PlainSlot s) :
    writeAll value s (rs ++ r :: ss) = writeAll value s (r :: (rs ++ ss)) := by
  induction rs generalizing s with
  | nil => rfl
  | cons x rs ih =>
    have swap := h x List.mem_cons_self s hs
    rw [List.cons_append, writeAll_cons, writeAll_cons,
      ih plain.tail (fun y hy => h y (List.mem_cons_of_mem x hy)) (hs.putBelow plain.head _),
      writeAll_cons, List.cons_append, writeAll_cons, swap]

/-- Two orders of the same writes give the same tree where the writes that change places are
independent. -/
theorem writeAll_perm {R S : Transition → Transition → Prop} {rs ss : List Transition}
    (p : rs.Perm ss) (hR : rs.Pairwise R) (hS : ss.Pairwise S) (plain : PlainValues value rs)
    (exchange : ∀ a ∈ rs, ∀ b ∈ rs, R a b → S b a → Independent value a b) {s : Option Tree}
    (hs : PlainSlot s) : writeAll value s rs = writeAll value s ss := by
  induction rs generalizing ss s with
  | nil =>
    rw [List.nil_perm.1 p]
  | cons r rs ih =>
    -- what stands before `r` in the other row is independent of it, so `r` can go first
    obtain ⟨before, behind, rfl⟩ := List.append_of_mem (p.mem_iff.1 List.mem_cons_self)
    have rest : rs.Perm (before ++ behind) :=
      List.Perm.cons_inv (p.trans List.perm_middle)
    have orderedS : (before ++ behind).Pairwise S :=
      hS.sublist ((List.Sublist.refl before).append (List.sublist_cons_self r behind))
    have free : ∀ x ∈ before, Independent value r x := by
      intro x hx
      have member : x ∈ rs := rest.mem_iff.2 (List.mem_append_left behind hx)
      have later : R r x := List.rel_of_pairwise_cons hR member
      have earlier : S x r := (List.pairwise_append.1 hS).2.2 x hx r List.mem_cons_self
      exact exchange r List.mem_cons_self x (List.mem_cons_of_mem r member) later earlier
    have plainBefore : PlainValues value before := by
      intro x hx
      exact plain.tail x (rest.mem_iff.2 (List.mem_append_left behind hx))
    rw [writeAll_move_first plainBefore free behind hs, writeAll_cons, writeAll_cons]
    refine ih rest (List.pairwise_cons.1 hR).2 orderedS plain.tail ?_ (hs.putBelow plain.head _)
    intro a ha b hb
    exact exchange a (List.mem_cons_of_mem r ha) b (List.mem_cons_of_mem r hb)

end Schedule

end TableMotion
