/-!
# Decimal digits

Writing a number in decimal digits and reading it back are inverse to each other on digits without
a leading zero (`toDigits_ofDigitChars`; the other direction is `Nat.ofDigitChars_toDigits`).
-/

namespace TableMotion

namespace Text

/-- Decimal digits, at least one, and no zero before others. -/
def IsCanonical (cs : List Char) : Prop :=
  cs ≠ [] ∧ cs.all Char.isDigit ∧ (cs.length = 1 ∨ cs.head? ≠ some '0')

instance (cs : List Char) : Decidable (IsCanonical cs) :=
  inferInstanceAs (Decidable (cs ≠ [] ∧ cs.all Char.isDigit ∧ (cs.length = 1 ∨ _)))

theorem digitChar_of_isDigit {c : Char} (h : c.isDigit) :
    Nat.digitChar (c.toNat - '0'.toNat) = c ∧ c.toNat - '0'.toNat < 10 := by
  have bounds : 48 ≤ c.toNat ∧ c.toNat ≤ 57 := by
    simp [Char.isDigit, UInt32.le_iff_toNat_le] at h
    exact h
  have spelled : c = Char.ofNat c.toNat := (Char.ofNat_toNat c).symm
  generalize c.toNat = n at bounds spelled
  subst spelled
  obtain ⟨d, rfl⟩ : ∃ d, n = 48 + d := ⟨n - 48, by omega⟩
  have small : d < 10 := by omega
  have table : ∀ d < 10, Nat.digitChar (48 + d - '0'.toNat) = Char.ofNat (48 + d) := by decide
  exact ⟨table d small, by simp; omega⟩

/-- The digits of a positive number do not begin with a zero. -/
theorem head?_toDigits {n : Nat} (h : 0 < n) : (Nat.toDigits 10 n).head? ≠ some '0' := by
  induction n using Nat.strongRecOn with
  | ind n ih =>
    rw [Nat.toDigits_eq_if (by decide)]
    split
    · simp [Nat.digitChar_eq_zero]
      omega
    · have lead := ih (n / 10) (by omega) (by omega)
      rcases front : Nat.toDigits 10 (n / 10) with _ | ⟨d, more⟩
      · exact absurd front Nat.toDigits_ne_nil
      · simpa [front] using lead

theorem isCanonical_toDigits (n : Nat) : IsCanonical (Nat.toDigits 10 n) := by
  refine ⟨Nat.toDigits_ne_nil, ?_, ?_⟩
  · rw [List.all_eq_true]
    exact fun c => Nat.isDigit_of_mem_toDigits (by decide) (by decide)
  · rcases Nat.eq_zero_or_pos n with rfl | positive
    · simp
    · exact Or.inr (head?_toDigits positive)

/-- Digits behind a number only make it larger. -/
theorem le_ofDigitChars (n : Nat) (ds : List Char) : n ≤ Nat.ofDigitChars 10 ds n := by
  rw [Nat.ofDigitChars_eq_ofDigitChars_zero]
  exact Nat.le_add_right_of_le (Nat.le_mul_of_pos_left n (Nat.pow_pos (by decide)))

/-- Canonical digits are the digits of the number they read as. -/
theorem toDigits_ofDigitChars {cs : List Char} (h : IsCanonical cs) :
    Nat.toDigits 10 (Nat.ofDigitChars 10 cs 0) = cs := by
  suffices reversed : ∀ r : List Char, IsCanonical r.reverse →
      Nat.toDigits 10 (Nat.ofDigitChars 10 r.reverse 0) = r.reverse by
    simpa using reversed cs.reverse (by simpa using h)
  intro r
  induction r with
  | nil => exact fun h => absurd rfl h.1
  | cons c r ih =>
    rintro ⟨-, digits, lead⟩
    rw [List.reverse_cons] at digits lead ⊢
    obtain ⟨spelled, small⟩ := digitChar_of_isDigit (c := c) (by simp_all)
    rw [Nat.ofDigitChars_append, Nat.ofDigitChars_cons, Nat.ofDigitChars_nil]
    rcases front : r.reverse with _ | ⟨d, more⟩
    · rw [Nat.ofDigitChars_nil, Nat.mul_zero, Nat.zero_add, Nat.toDigits_of_lt_base small, spelled]
      rfl
    · rw [front] at digits lead ih
      have unpadded : d ≠ '0' := by simpa using lead
      have inner := ih ⟨by simp, by simp_all, by simp [unpadded]⟩
      have positive : 0 < Nat.ofDigitChars 10 (d :: more) 0 := by
        rcases Nat.eq_zero_or_pos (Nat.ofDigitChars 10 (d :: more) 0) with zero | positive
        · rw [zero, Nat.toDigits_zero] at inner
          exact absurd (List.cons.inj inner).1.symm unpadded
        · exact positive
      rw [← Nat.toDigits_append_toDigits (by decide) positive small, inner,
        Nat.toDigits_of_lt_base small, spelled]

end Text

end TableMotion
