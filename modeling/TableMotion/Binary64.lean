/-!
# Double-precision numbers

A number is a sign and a magnitude: the 63 bits below the sign bit of its IEEE 754 form. Read as
natural numbers, magnitudes are ordered like the numbers they stand for, so both orders used here
are comparisons of integers. The numeric order takes the two zeros for equal and leaves out what is
not a number; the total order puts `-0` below `0` and what is not a number at the far ends.
-/

namespace TableMotion

/-- A double-precision number. Magnitudes up to that of infinity are numbers; the single magnitude
above it is not a number. -/
structure Binary64 where
  negative : Bool
  magnitude : Nat
  valid : magnitude ≤ 0x7FF0000000000000 ∨ magnitude = 0x7FF8000000000000
deriving DecidableEq

namespace Binary64

/-- The magnitude of the infinities. -/
def infiniteMagnitude : Nat := 0x7FF0000000000000

/-- The number of a sign and a magnitude; a magnitude past the largest one is infinite. -/
def ofMagnitude (negative : Bool) (magnitude : Nat) : Binary64 :=
  ⟨negative, min magnitude 0x7FF0000000000000, Or.inl (Nat.min_le_right ..)⟩

/-- The zero of a sign. -/
def zero (negative : Bool) : Binary64 := ⟨negative, 0, by decide⟩

/-- The infinity of a sign. -/
def infinity (negative : Bool) : Binary64 := ⟨negative, 0x7FF0000000000000, by decide⟩

/-- What is not a number, with a sign. -/
def nan (negative : Bool) : Binary64 := ⟨negative, 0x7FF8000000000000, by decide⟩

/-- Not a number. -/
def isNaN (x : Binary64) : Bool := infiniteMagnitude < x.magnitude

def isInfinite (x : Binary64) : Bool := x.magnitude = infiniteMagnitude

def isFinite (x : Binary64) : Bool := x.magnitude < infiniteMagnitude

def isZero (x : Binary64) : Bool := x.magnitude = 0

/-- The 64 bits of the number. -/
def bits (x : Binary64) : Nat := (if x.negative then 0x8000000000000000 else 0) + x.magnitude

/-! ## The numeric order -/

/-- Where the number stands in the numeric order; both zeros stand at `0`. -/
def rank (x : Binary64) : Int := if x.negative then -x.magnitude else x.magnitude

instance : LT Binary64 := ⟨fun x y => x.isNaN = false ∧ y.isNaN = false ∧ x.rank < y.rank⟩

instance : LE Binary64 := ⟨fun x y => x.isNaN = false ∧ y.isNaN = false ∧ x.rank ≤ y.rank⟩

instance (x y : Binary64) : Decidable (x < y) :=
  inferInstanceAs (Decidable (x.isNaN = false ∧ y.isNaN = false ∧ x.rank < y.rank))

instance (x y : Binary64) : Decidable (x ≤ y) :=
  inferInstanceAs (Decidable (x.isNaN = false ∧ y.isNaN = false ∧ x.rank ≤ y.rank))

theorem lt_iff {x y : Binary64} :
    x < y ↔ x.isNaN = false ∧ y.isNaN = false ∧ x.rank < y.rank := Iff.rfl

theorem le_iff {x y : Binary64} :
    x ≤ y ↔ x.isNaN = false ∧ y.isNaN = false ∧ x.rank ≤ y.rank := Iff.rfl

theorem lt_irrefl (x : Binary64) : ¬ x < x := fun h => Int.lt_irrefl _ h.2.2

theorem lt_trans {x y z : Binary64} (h : x < y) (k : y < z) : x < z :=
  ⟨h.1, k.2.1, Int.lt_trans h.2.2 k.2.2⟩

theorem le_trans {x y z : Binary64} (h : x ≤ y) (k : y ≤ z) : x ≤ z :=
  ⟨h.1, k.2.1, Int.le_trans h.2.2 k.2.2⟩

theorem lt_of_lt_of_le {x y z : Binary64} (h : x < y) (k : y ≤ z) : x < z :=
  ⟨h.1, k.2.1, Int.lt_of_lt_of_le h.2.2 k.2.2⟩

theorem lt_of_le_of_lt {x y z : Binary64} (h : x ≤ y) (k : y < z) : x < z :=
  ⟨h.1, k.2.1, Int.lt_of_le_of_lt h.2.2 k.2.2⟩

theorem le_of_lt {x y : Binary64} (h : x < y) : x ≤ y := ⟨h.1, h.2.1, Int.le_of_lt h.2.2⟩

theorem le_self {x : Binary64} (number : x.isNaN = false) : x ≤ x :=
  ⟨number, number, Int.le_refl _⟩

theorem not_le_of_lt {x y : Binary64} (h : x < y) : ¬ y ≤ x :=
  fun back => lt_irrefl x (lt_of_lt_of_le h back)

/-- Two numbers are comparable. -/
theorem not_lt {x y : Binary64} (hx : x.isNaN = false) (hy : y.isNaN = false) :
    ¬ x < y ↔ y ≤ x := by
  simp [lt_iff, le_iff, hx, hy]

/-- What is not a number is not above anything and not below anything. -/
theorem not_le_of_isNaN {x y : Binary64} (h : x.isNaN = true ∨ y.isNaN = true) : ¬ x ≤ y := by
  rcases h with h | h <;> simp [le_iff, h]

/-- Raises a number below `low` to `low`, then lowers one above `high` to `high`. What is not a
number stays. -/
def clamp (x low high : Binary64) : Binary64 :=
  let raised := if x < low then low else x
  if high < raised then high else raised

/-! ## The total order -/

/-- Where the number stands in the total order. Distinct numbers stand at distinct places. -/
def totalRank (x : Binary64) : Int := if x.negative then -x.magnitude - 1 else x.magnitude

/-- Comparison in the total order. -/
def totalCompare (x y : Binary64) : Ordering := compare x.totalRank y.totalRank

theorem totalRank_injective {x y : Binary64} (h : x.totalRank = y.totalRank) : x = y := by
  obtain ⟨nx, mx, _⟩ := x
  obtain ⟨ny, my, _⟩ := y
  cases nx <;> cases ny <;> simp [totalRank] at h ⊢ <;> omega

theorem totalCompare_eq_iff {x y : Binary64} : x.totalCompare y = .eq ↔ x = y := by
  refine ⟨fun h => totalRank_injective (Int.compare_eq_eq.1 h), ?_⟩
  rintro rfl
  exact Int.compare_eq_eq.2 rfl

/-- On numbers the total order refines the numeric one. -/
theorem totalRank_lt_of_lt {x y : Binary64} (h : x < y) : x.totalRank < y.totalRank := by
  have less := h.2.2
  cases hx : x.negative <;> cases hy : y.negative <;> simp [rank, totalRank, hx, hy] at less ⊢
  all_goals omega

/-- The two zeros apart, the orders agree on numbers. -/
theorem totalRank_le_of_le {x y : Binary64} (h : x ≤ y) (positive : y ≠ zero true) :
    x.totalRank ≤ y.totalRank := by
  have notAbove := h.2.2
  obtain ⟨nx, mx, _⟩ := x
  obtain ⟨ny, my, _⟩ := y
  cases nx <;> cases ny <;> simp [rank, totalRank, zero] at notAbove positive ⊢ <;> omega

end Binary64

end TableMotion
