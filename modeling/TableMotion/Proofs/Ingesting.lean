import TableMotion.Proofs.Displaying
import TableMotion.Proofs.Lasting

/-!
# Strings and numbers taken into a tree

A string becomes an amount exactly if it spells a number without a plus sign and without padding,
and the nearest number of millionths is in range (`ofString_eq_amount_iff`). A whole number that
fits becomes the same amount, whether it comes as a number or as its digits, with or without zeros
behind a point.
-/

namespace TableMotion

namespace Amount.Spelling

/-- There is no plus sign, and a zero leads the digits before the point only alone. -/
structure IsPlain (d : Spelling) : Prop where
  unsigned : d.sign ≠ .plus
  unpadded : d.whole = ['0'] ∨ d.whole.head? ≠ some '0'

theorem isPlain_natural (negative : Bool) (n : Nat) (fraction : Option (List Char)) :
    (natural negative n fraction).IsPlain := by
  refine ⟨unsigned_natural _ _ _, ?_⟩
  rcases Nat.eq_zero_or_pos n with rfl | positive
  · exact .inl rfl
  · exact .inr (Text.head?_toDigits positive)

/-- An integer of as many millions is the nearest to an integer. -/
theorem nearest_natural {n : ℤ} {fraction : Option (List Char)}
    (zeros : Nat.ofDigitChars 10 (fraction.getD []) 0 = 0) :
    (natural (n < 0) n.natAbs fraction).nearest = n * 1000000 := by
  have size : (natural (n < 0) n.natAbs fraction).size * 1 = n.natAbs := by
    rw [size_natural, zeros]
    simp
  have value := value_natural_mul size
  rw [mul_one] at value
  rw [nearest, value]
  exact_mod_cast halfAway_intCast (n * 1000000)

end Amount.Spelling

namespace Tree

open Amount

variable {text : String} {d : Spelling}

/-! ## Strings -/

/-- A minus sign is passed over, and no other is. -/
theorem looksLikeAmount_eq {cs : List Char}
    (h : text.toList = '-' :: cs ∨ text.toList = cs ∧ cs.head? ≠ some '-') :
    looksLikeAmount text = (cs.head? ≠ some '+' &&
      !((cs.takeWhile (· ≠ '.')).length > 1 && (cs.takeWhile (· ≠ '.')).head? = some '0')) := by
  unfold looksLikeAmount
  rcases h with minus | ⟨rfl, unsigned⟩
  · rw [minus]
    rfl
  · split
    · next spelled => exact absurd (congrArg List.head? spelled) unsigned
    · rfl

/-- Digits are not padded if they are a zero alone, or no zero leads them. -/
theorem not_padded_iff (ds : List Char) :
    ¬ (1 < ds.length ∧ ds.head? = some '0') ↔ ds = ['0'] ∨ ds.head? ≠ some '0' := by
  rcases ds with _ | ⟨c, _ | ⟨c', more⟩⟩
  · simp
  · simp [em]
  · simp

/-- A text that spells a number looks like an amount if it spells it plainly. -/
theorem looksLikeAmount_iff (h : Spells text d) : looksLikeAmount text = true ↔ d.IsPlain := by
  have spelled := h.chars
  have first := fun c => ne_sign_of_head? h.toIsDecimal (c := c)
  have whole : (d.whole ++ Spelling.pointed d.fraction).takeWhile (· ≠ '.') = d.whole :=
    congrArg Prod.fst (splitPoint_pointed h.toIsDecimal)
  rw [Spelling.chars] at spelled
  -- behind a plus sign nothing counts; else what follows the sign decides
  by_cases plus : d.sign = .plus
  · rw [plus] at spelled
    rw [looksLikeAmount_eq (.inr ⟨spelled, by simp [Sign.chars]⟩)]
    exact iff_of_false (by simp [Sign.chars]) fun plain => plain.unsigned plus
  · have begins : text.toList = '-' :: (d.whole ++ Spelling.pointed d.fraction) ∨
        text.toList = d.whole ++ Spelling.pointed d.fraction ∧
          (d.whole ++ Spelling.pointed d.fraction).head? ≠ some '-' := by
      cases sign : d.sign with
      | plus => exact absurd sign plus
      | minus =>
        rw [sign] at spelled
        exact .inl spelled
      | absent =>
        rw [sign] at spelled
        exact .inr ⟨spelled, fun minus => (first _ minus).1 rfl⟩
    have noPlus : (d.whole ++ Spelling.pointed d.fraction).head? ≠ some '+' :=
      fun plus => (first _ plus).2 rfl
    have unpadded := not_padded_iff d.whole
    rw [looksLikeAmount_eq begins, whole]
    constructor
    · intro looks
      refine ⟨plus, unpadded.1 fun padded => ?_⟩
      simp [padded] at looks
    · intro plain
      have kept := unpadded.2 plain.unpadded
      rw [Bool.and_eq_true, Bool.not_eq_true', Bool.and_eq_false_iff]
      refine ⟨decide_eq_true noPlus, ?_⟩
      simpa [imp_iff_not_or] using kept

theorem ofString_eq_amount_iff {a : Amount} :
    ofString text = .amount a ↔ ∃ d, Spells text d ∧ d.IsPlain ∧ d.nearest = a.raw := by
  constructor
  · intro h
    rw [ofString] at h
    split at h
    · next looks =>
      split at h
      · next b found =>
        cases h
        obtain ⟨d, spells, nearest⟩ := ofText_eq_ok_iff.1 found
        exact ⟨d, spells, (looksLikeAmount_iff spells).1 looks, nearest⟩
      · cases h
    · cases h
  · rintro ⟨d, spells, plain, nearest⟩
    rw [ofString, if_pos ((looksLikeAmount_iff spells).2 plain),
      ofText_eq_ok_iff.2 ⟨d, spells, nearest⟩]

/-- A text that spells a number plainly becomes the nearest amount, and is kept if there is none. -/
theorem ofString_of_spells (h : Spells text d) (plain : d.IsPlain) :
    ofString text = (ofRaw? d.nearest).elim (.text text) .amount := by
  rw [ofString, if_pos ((looksLikeAmount_iff h).2 plain), ofText_of_spells h]
  cases ofRaw? d.nearest <;> rfl

/-! ## Whole numbers -/

/-- The digits of an integer, and what stands behind them, spell it. -/
theorem spells_integerChars (n : ℤ) {fraction : Option (List Char)}
    (digits : (fraction.getD []).all Char.isDigit = true) :
    Spells (String.ofList (Json.integerChars n ++ Spelling.pointed fraction))
      (.natural (n < 0) n.natAbs fraction) := by
  refine ⟨Spelling.isDecimal_natural digits, ?_⟩
  rw [String.toList_ofList, Spelling.chars_natural, Json.integerChars, List.append_assoc]
  simp only [decide_eq_true_eq]

/-- The digits of an integer become the integer, if it is in range, with and without zeros behind a
point. -/
theorem ofString_integerChars (n : ℤ) (fraction : Option (List Char))
    (zeros : fraction.getD [] = List.replicate (fraction.getD []).length '0') :
    ofString (String.ofList (Json.integerChars n ++ Spelling.pointed fraction)) =
      (ofInt? n).elim (.text (String.ofList (Json.integerChars n ++ Spelling.pointed fraction)))
        .amount := by
  have digits : (fraction.getD []).all Char.isDigit = true := by
    rw [zeros]
    simp
  have nothing : Nat.ofDigitChars 10 (fraction.getD []) 0 = 0 := by
    rw [zeros, Nat.ofDigitChars_replicate_zero, Nat.mul_zero]
  rw [ofString_of_spells (spells_integerChars n digits) (Spelling.isPlain_natural _ _ _),
    Spelling.nearest_natural nothing]
  rfl

/-- A whole number that fits becomes the amount of as many millions. -/
theorem ofInteger_of_ofInt? {n : ℤ} {a : Amount} (h : ofInt? n = some a) :
    ofInteger n = .amount a := by
  have fits : -0x8000000000000000 ≤ n ∧ n < 0x8000000000000000 :=
    fits_of_mul_scale (ofRaw?_eq_some_iff.1 h) a.inRange
  rw [ofInteger, if_pos fits, h]
  rfl

/-- A string becomes an amount exactly if it spells a number plainly that the amount is nearest to,
and is kept otherwise. A whole number in range becomes what its digits become, with and without
zeros behind a point. -/
theorem ofJson_decimal :
    (∀ (s : String) (a : Amount),
      ofJson (.text s) = .amount a ↔ ∃ d, Spells s d ∧ d.IsPlain ∧ d.nearest = a.raw) ∧
    (∀ s : String, (¬ ∃ (a : Amount) (d : Spelling), Spells s d ∧ d.IsPlain ∧ d.nearest = a.raw) →
      ofJson (.text s) = .text s) ∧
    ∀ n : ℤ, -0x8000000000000000 ≤ n * scale ∧ n * scale < 0x8000000000000000 →
      ofJson (.integer n) = ofJson (.text (String.ofList (Json.integerChars n))) ∧
      ∀ k, ofJson (.integer n) =
        ofJson (.text (String.ofList (Json.integerChars n ++ '.' :: List.replicate k '0'))) := by
  refine ⟨fun s a => ofString_eq_amount_iff, fun s none => ?_, fun n range => ?_⟩
  · rcases ofString_cases s with ⟨a, read⟩ | kept
    · obtain ⟨d, read⟩ := ofString_eq_amount_iff.1 read
      exact absurd ⟨a, d, read⟩ none
    · exact kept
  · have fits : ofInt? n = some ⟨n * scale, range⟩ := ofRaw?_eq_some_iff.2 rfl
    have number : ofJson (.integer n) = .amount ⟨n * scale, range⟩ := ofInteger_of_ofInt? fits
    have digits (fraction : Option (List Char))
        (zeros : fraction.getD [] = List.replicate (fraction.getD []).length '0') :
        ofJson (.text (String.ofList (Json.integerChars n ++ Spelling.pointed fraction))) =
          .amount ⟨n * scale, range⟩ := by
      rw [ofJson, ofString_integerChars n fraction zeros, fits]
      rfl
    constructor
    · have plain := digits none rfl
      rw [Spelling.pointed, List.append_nil] at plain
      rw [number, plain]
    · intro k
      rw [number]
      exact (digits (some (List.replicate k '0')) (by simp)).symm

theorem ofJson_decimal_most :
    ofJson (.text "-007") = .text "-007" ∧
      ofJson (.integer (-9223372036854)) = ofJson (.text "-9223372036854") ∧
      ofJson (.integer (-9223372036854)) = ofJson (.text "-9223372036854.00") := by
  have kept : ofJson (.text "-007") = .text "-007" := by
    refine ofJson_decimal.2.1 _ ?_
    rintro ⟨a, read⟩
    have amount := (ofJson_decimal.1 _ a).2 read
    have padded : looksLikeAmount "-007" = false := by decide
    simp [ofJson, ofString, padded] at amount
  obtain ⟨digits, zeros⟩ := ofJson_decimal.2.2 (-9223372036854) (by decide)
  exact ⟨kept, digits, zeros 2⟩

end Tree

end TableMotion
