import TableMotion.Path.Order

/-!
# The order of paths is linear

Keys that name indices are ordered by their numbers and other keys by their text, the former first,
and paths key by key. Both comparisons are lawful linear orders. In the order of paths a path comes
directly before what lies under it, so a listing in that order visits a tree from above. What lies
under a path is one block of the listing, and the items of a list come in the order of their indices
(`compare_laws`).
-/

namespace TableMotion

namespace Path

/-! ## Keys -/

instance : Std.OrientedCmp compareKeys where
  eq_swap := by
    intro a b
    unfold compareKeys
    cases index? a with
    | none =>
      cases index? b with
      | none => exact (Std.OrientedCmp.eq_swap : Ord.compare a b = (Ord.compare b a).swap)
      | some j => rfl
    | some i =>
      cases index? b with
      | none => rfl
      | some j => exact (Std.OrientedCmp.eq_swap : Ord.compare i j = (Ord.compare j i).swap)

instance : Std.TransCmp compareKeys where
  isLE_trans := by
    intro a b c h k
    unfold compareKeys at h k ⊢
    cases ha : index? a with
    | none =>
      cases hb : index? b <;> cases hc : index? c <;> simp_all
      exact Std.TransCmp.isLE_trans h k
    | some i =>
      cases hb : index? b <;> cases hc : index? c <;> simp_all
      exact Std.TransCmp.isLE_trans h k

instance : Std.LawfulEqCmp compareKeys where
  eq_of_compare := by
    intro a b h
    unfold compareKeys at h
    cases ha : index? a with
    | none =>
      cases hb : index? b with
      | none => simpa [ha, hb] using h
      | some j => simp [ha, hb] at h
    | some i =>
      cases hb : index? b with
      | none => simp [ha, hb] at h
      | some j =>
        have same : i = j := Nat.compare_eq_eq.1 (by simpa [ha, hb] using h)
        rw [(eq_indexKey_of_index? ha).1, (eq_indexKey_of_index? hb).1, same]

/-! ## Paths -/

theorem compare_eq_compareLex (p q : Path) : compare p q = List.compareLex compareKeys p q := by
  induction p generalizing q with
  | nil =>
    cases q with
    | nil => simp [compare, List.compareLex_nil_nil]
    | cons => simp [compare, List.compareLex_nil_cons]
  | cons key p ih =>
    cases q with
    | nil => simp [compare, List.compareLex_cons_nil]
    | cons other q =>
      rw [compare, List.compareLex_cons_cons, ih]

instance : Std.TransCmp compare where
  eq_swap := by
    intro p q
    rw [compare_eq_compareLex, compare_eq_compareLex]
    exact Std.OrientedCmp.eq_swap
  isLE_trans := by
    intro p q r h k
    rw [compare_eq_compareLex] at h k ⊢
    exact Std.TransCmp.isLE_trans h k

instance : Std.LawfulEqCmp compare where
  eq_of_compare := by
    intro p q h
    rw [compare_eq_compareLex] at h
    exact Std.LawfulEqCmp.eq_of_compare h

/-- `p` stands before `q`. -/
def Before (p q : Path) : Prop := compare p q = .lt

theorem Before.trans {p q r : Path} (h : p.Before q) (k : q.Before r) : p.Before r :=
  Std.TransCmp.lt_trans h k

theorem Before.irrefl (p : Path) : ¬ p.Before p := by
  simp [Before, Std.ReflCmp.compare_self]

theorem Before.asymm {p q : Path} (h : p.Before q) : ¬ q.Before p :=
  fun k => Before.irrefl p (h.trans k)

theorem Before.ne {p q : Path} (h : p.Before q) : p ≠ q :=
  fun same => Before.irrefl p (same ▸ h)

theorem compare_eq_iff {p q : Path} : compare p q = .eq ↔ p = q :=
  Std.LawfulEqCmp.compare_eq_iff_eq

theorem compare_gt_iff {p q : Path} : compare p q = .gt ↔ q.Before p :=
  Std.OrientedCmp.gt_iff_lt

/-- A common stem does not count. -/
theorem before_append_iff (stem p q : Path) :
    Before (stem ++ p) (stem ++ q) ↔ p.Before q := by
  induction stem with
  | nil => exact Iff.rfl
  | cons key stem ih =>
    rw [← ih]
    simp [Before, compare, Std.ReflCmp.compare_self]

/-- A path comes before those under it. -/
theorem before_of_isAbove {p q : Path} (h : p.isAbove q = true) : p.Before q := by
  obtain ⟨key, rest, rfl⟩ := isAbove_iff.1 h
  have := (before_append_iff p [] (key :: rest)).2 (by simp [Before, compare])
  simpa using this

theorem isLE_compare_iff {p q : Path} : (compare p q).isLE = true ↔ p = q ∨ p.Before q := by
  rw [Ordering.isLE_iff_eq_lt_or_eq_eq, compare_eq_iff, or_comm, Before]

theorem isLE_compare_total (p q : Path) :
    (compare p q).isLE = true ∨ (compare q p).isLE = true := by
  rw [isLE_compare_iff, isLE_compare_iff]
  cases order : compare p q with
  | lt => exact Or.inl (Or.inr order)
  | eq => exact Or.inl (Or.inl (compare_eq_iff.1 order))
  | gt => exact Or.inr (Or.inr (compare_gt_iff.1 order))

/-! ## Blocks -/

/-- `p` and `q` part at some node, and `p` goes on with the lesser key. -/
def LeftOf (p q : Path) : Prop :=
  ∃ (stem : Path) (a b : String) (u v : Path),
    p = stem ++ a :: u ∧ q = stem ++ b :: v ∧ compareKeys a b = .lt

theorem LeftOf.before {p q : Path} (h : p.LeftOf q) : p.Before q := by
  obtain ⟨stem, a, b, u, v, rfl, rfl, less⟩ := h
  rw [before_append_iff]
  simp [Before, compare, less]

/-- What lies under `p` is left of what lies under `q`. -/
theorem LeftOf.append {p q : Path} (h : p.LeftOf q) (rest more : Path) :
    LeftOf (p ++ rest) (q ++ more) := by
  obtain ⟨stem, a, b, u, v, rfl, rfl, less⟩ := h
  exact ⟨stem, a, b, u ++ rest, v ++ more, by simp, by simp, less⟩

/-- One path comes before another if it lies above it or to its left, and not otherwise. -/
theorem before_iff {p q : Path} : p.Before q ↔ p.isAbove q = true ∨ p.LeftOf q := by
  refine ⟨?_, fun h => h.elim before_of_isAbove LeftOf.before⟩
  induction p generalizing q with
  | nil =>
    intro before
    cases q with
    | nil => exact absurd before (Before.irrefl [])
    | cons key q => exact Or.inl (isAbove_iff.2 ⟨key, q, rfl⟩)
  | cons a p ih =>
    intro before
    cases q with
    | nil => cases before
    | cons b q =>
      rw [Before, compare, Ordering.then_eq_lt] at before
      rcases before with less | ⟨same, before⟩
      · exact Or.inr ⟨[], a, b, p, q, rfl, rfl, less⟩
      · obtain rfl := Std.LawfulEqCmp.eq_of_compare same
        rcases ih before with above | ⟨stem, c, d, u, v, rfl, rfl, less⟩
        · obtain ⟨key, rest, rfl⟩ := isAbove_iff.1 above
          exact Or.inl (isAbove_iff.2 ⟨key, rest, rfl⟩)
        · exact Or.inr ⟨a :: stem, c, d, u, v, rfl, rfl, less⟩

/-- What stands between a path and something under it lies under it, too. -/
theorem covers_of_between {p q r : Path} (under : p.covers r = true)
    (first : (compare p q).isLE = true) (last : (compare q r).isLE = true) :
    p.covers q = true := by
  rcases isLE_compare_iff.1 first with rfl | before
  · exact covers_self p
  rcases before_iff.1 before with above | left
  · exact covers_of_isAbove above
  · -- the whole block of `p` is left of `q`, and `r` with it
    obtain ⟨rest, rfl⟩ := covers_iff.1 under
    have past : Before (p ++ rest) q := by simpa using (left.append rest []).before
    rcases isLE_compare_iff.1 last with rfl | back
    · exact absurd past (Before.irrefl _)
    · exact absurd back past.asymm

/-- The blocks of two children stand in the order of their keys. -/
theorem before_of_children {p q r : Path} {a b : String} (less : compareKeys a b = .lt)
    (hq : (p.child a).covers q = true) (hr : (p.child b).covers r = true) : q.Before r := by
  obtain ⟨rest, rfl⟩ := covers_iff.1 hq
  obtain ⟨more, rfl⟩ := covers_iff.1 hr
  have left : LeftOf (p.child a) (p.child b) := ⟨p, a, b, [], [], rfl, rfl, less⟩
  exact (left.append rest more).before

theorem compareKeys_of_lt {a b : String} {i j : Nat} (first : index? a = some i)
    (second : index? b = some j) (less : i < j) : compareKeys a b = .lt := by
  rw [compareKeys, first, second]
  exact Nat.compare_eq_lt.2 less

theorem compareKeys_of_not_index {i : Nat} {key : String} (small : i < 0x10000000000000000)
    (other : ∀ j < 0x10000000000000000, key ≠ indexKey j) :
    compareKeys (indexKey i) key = .lt := by
  have unnamed : index? key = none := by
    rw [Option.eq_none_iff_forall_ne_some]
    intro j named
    obtain ⟨same, known⟩ := eq_indexKey_of_index? named
    exact other j known same
  rw [compareKeys, index?_indexKey small, unnamed]

/-- The comparison is a linear order, and equal for equal paths alone. A path comes before all that
lies under it, and all that lies under it is one block. The block of an index of a list comes before
those of the greater indices and before those of the keys that are no index. -/
theorem compare_laws (p q r : Path) :
    (compare p q = .eq ↔ p = q) ∧
    compare q p = (compare p q).swap ∧
    ((compare p q).isLE = true ∨ (compare q p).isLE = true) ∧
    ((compare p q).isLE = true → (compare q p).isLE = true → p = q) ∧
    ((compare p q).isLE = true → (compare q r).isLE = true → (compare p r).isLE = true) ∧
    (p.isAbove q = true → compare p q = .lt) ∧
    (p.covers r = true → (compare p q).isLE = true → (compare q r).isLE = true →
      p.covers q = true) ∧
    (∀ i j, i < j → j < 0x10000000000000000 →
      (p.child (indexKey i)).covers q = true → (p.child (indexKey j)).covers r = true →
      compare q r = .lt) ∧
    ∀ i key, i < 0x10000000000000000 → (∀ j < 0x10000000000000000, key ≠ indexKey j) →
      (p.child (indexKey i)).covers q = true → (p.child key).covers r = true →
      compare q r = .lt := by
  refine ⟨compare_eq_iff, Std.OrientedCmp.eq_swap, isLE_compare_total p q, ?_,
    Std.TransCmp.isLE_trans, before_of_isAbove, covers_of_between, ?_, ?_⟩
  · exact fun le ge => compare_eq_iff.1 (Std.OrientedCmp.isLE_antisymm le ge)
  · intro i j less small
    have known : index? (indexKey i) = some i := index?_indexKey (Nat.lt_trans less small)
    exact before_of_children (compareKeys_of_lt known (index?_indexKey small) less)
  · exact fun i key small other => before_of_children (compareKeys_of_not_index small other)

/-- What lies under the third item of a board comes before the eleventh item, which comes before
what lies under `02`; all of it is in the block of the board. -/
theorem compare_laws_board :
    let board : Path := ["board"]
    let suit : Path := ["board", "2", "suit"]
    let eleventh : Path := ["board", "10"]
    let padded : Path := ["board", "02", "suit"]
    compare board eleventh = .lt ∧ compare suit eleventh = .lt ∧
      compare eleventh padded = .lt ∧ (compare suit padded).isLE = true ∧
      board.covers eleventh = true := by
  intro board suit eleventh padded
  obtain ⟨-, -, -, -, -, above, between, -⟩ := compare_laws board eleventh padded
  obtain ⟨-, -, -, -, -, -, -, items, -⟩ := compare_laws board suit eleventh
  obtain ⟨-, -, -, -, -, -, -, -, others⟩ := compare_laws board eleventh padded
  obtain ⟨-, -, -, -, trans, -⟩ := compare_laws suit eleventh padded
  have noIndex : ∀ j < 0x10000000000000000, "02" ≠ indexKey j := by
    intro j small same
    have unnamed : index? "02" = none := by decide +kernel
    rw [same, index?_indexKey small] at unnamed
    cases unnamed
  have first : compare board eleventh = .lt := above (by decide)
  have second : compare suit eleventh = .lt :=
    items 2 10 (by decide) (by decide) (by decide +kernel) (by decide +kernel)
  have third : compare eleventh padded = .lt :=
    others 10 "02" (by decide) noIndex (by decide +kernel) (by decide)
  refine ⟨first, second, third, trans ?_ ?_, between (by decide) ?_ ?_⟩
  · rw [second]; rfl
  · rw [third]; rfl
  · rw [first]; rfl
  · rw [third]; rfl

end Path

end TableMotion
