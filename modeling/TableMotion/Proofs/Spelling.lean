import Mathlib.Data.Rat.Floor
import Mathlib.Tactic.Linarith
import Mathlib.Tactic.Ring
import TableMotion.Amount.Text
import TableMotion.Text.Digits

/-!
# Spelled amounts

A text spells a decimal number: a sign may stand in front, then come digits, and behind a point more
of them. Such a text is read as the nearest number of millionths, a half going away from zero,
however many digits there are; what is too large for an amount is reported (`ofText_of_spells`). A
text that spells no number is no amount (`ofText_of_not_spells`).
-/

namespace TableMotion

/-! ## Rounding to an integer -/

/-- The integer nearest to a rational number, a half going away from zero. -/
def halfAway (x : ℚ) : ℤ := if x < 0 then -⌊-x + 1 / 2⌋ else ⌊x + 1 / 2⌋

/-- From zero on a half goes up. -/
theorem halfAway_eq_iff {x : ℚ} (nonneg : 0 ≤ x) {n : ℤ} :
    halfAway x = n ↔ (n : ℚ) - 1 / 2 ≤ x ∧ x < n + 1 / 2 := by
  rw [halfAway, if_neg (not_lt.2 nonneg), Int.floor_eq_iff]
  constructor
  · rintro ⟨low, high⟩
    exact ⟨by linarith, by linarith⟩
  · rintro ⟨low, high⟩
    exact ⟨by linarith, by linarith⟩

/-- Below zero all is mirrored. -/
theorem halfAway_neg (x : ℚ) : halfAway (-x) = -halfAway x := by
  rcases lt_trichotomy x 0 with below | rfl | above
  · rw [halfAway, halfAway, if_neg (by linarith), if_pos below, neg_neg]
  · norm_num [halfAway]
  · rw [halfAway, halfAway, if_pos (by linarith), if_neg (by linarith), neg_neg]

theorem halfAway_intCast (n : ℤ) : halfAway n = n := by
  rcases le_total 0 n with nonneg | nonpos
  · exact (halfAway_eq_iff (by exact_mod_cast nonneg)).2 ⟨by linarith, by linarith⟩
  · have mirrored : halfAway ((-n : ℤ) : ℚ) = -n :=
      (halfAway_eq_iff (by exact_mod_cast Int.neg_nonneg_of_nonpos nonpos)).2
        ⟨by linarith, by linarith⟩
    rw [Int.cast_neg, halfAway_neg] at mirrored
    exact Int.neg_inj.1 mirrored

namespace Amount

/-! ## Millionths -/

theorem ofRaw?_eq_some_iff {raw : ℤ} {a : Amount} : ofRaw? raw = some a ↔ raw = a.raw := by
  rw [ofRaw?]
  constructor
  · intro h
    split at h
    · cases h
      rfl
    · cases h
  · rintro rfl
    rw [dif_pos a.inRange]

theorem ofRaw?_eq_none_iff {raw : ℤ} :
    ofRaw? raw = none ↔ ¬ (-0x8000000000000000 ≤ raw ∧ raw < 0x8000000000000000) := by
  rw [ofRaw?]
  split
  · next range => simp [range]
  · next range => simp only [range, not_false_eq_true]

theorem ofDigitChars_lt {ds : List Char} (digits : ds.all Char.isDigit = true) :
    Nat.ofDigitChars 10 ds 0 < 10 ^ ds.length := by
  induction ds with
  | nil => simp
  | cons c ds ih =>
    rw [List.all_cons, Bool.and_eq_true] at digits
    have step := Nat.mul_le_mul_left (10 ^ ds.length)
      (Nat.succ_le_of_lt (Text.digitChar_of_isDigit digits.1).2)
    have rest := ih digits.2
    rw [Nat.ofDigitChars_cons, Nat.ofDigitChars_eq_ofDigitChars_zero, List.length_cons,
      Nat.pow_succ, Nat.mul_zero, Nat.zero_add]
    linarith

theorem five_le_iff (c : Char) : '5' ≤ c ↔ 5 ≤ c.toNat - '0'.toNat := by
  rw [Char.le_def, UInt32.le_iff_toNat_le]
  show 53 ≤ c.toNat ↔ 5 ≤ c.toNat - 48
  omega

/-- No digit leads back into range, so giving up early loses nothing. -/
theorem wholeOf?_eq {n : Nat} (fits : n ≤ 0x7FFFFFFFFFFFFFFF) (ds : List Char) :
    wholeOf? n ds = if Nat.ofDigitChars 10 ds n ≤ 0x7FFFFFFFFFFFFFFF then
      some (Nat.ofDigitChars 10 ds n) else none := by
  induction ds generalizing n with
  | nil => rw [wholeOf?, Nat.ofDigitChars_nil, if_pos fits]
  | cons c cs ih =>
    have grows := Text.le_ofDigitChars (10 * n + (c.toNat - '0'.toNat)) cs
    simp only [wholeOf?]
    rw [Nat.ofDigitChars_cons]
    split
    · rw [if_neg (by omega)]
    · next fits => exact ih (Nat.le_of_not_lt fits)

/-- Digits in their places, up to the last place, are the number they form with zeros behind it. -/
theorem addPlaces_eq {ds : List Char} {k : Nat} (short : ds.length ≤ k + 1) (size : Nat) :
    addPlaces size (10 ^ k) ds = size + 10 ^ (k + 1 - ds.length) * Nat.ofDigitChars 10 ds 0 := by
  induction ds generalizing k size with
  | nil => simp [addPlaces]
  | cons c cs ih =>
    rw [addPlaces, Nat.ofDigitChars_cons, Nat.ofDigitChars_eq_ofDigitChars_zero, Nat.mul_zero,
      Nat.zero_add]
    rw [List.length_cons] at short ⊢
    cases k with
    | zero =>
      obtain rfl : cs = [] := List.length_eq_zero_iff.1 (by omega)
      simp [addPlaces]
    | succ k =>
      have tenth : 10 ^ (k + 1) / 10 = 10 ^ k := by
        rw [Nat.pow_succ, Nat.mul_div_cancel _ (by decide)]
      have places : 10 ^ (k + 1) = 10 ^ (k + 1 - cs.length) * 10 ^ cs.length := by
        rw [← Nat.pow_add, Nat.sub_add_cancel (by omega)]
      rw [tenth, ih (by omega), Nat.add_sub_add_right, places]
      ring

/-- The millionths that the digits behind the point stand for. -/
def millionths (fraction : List Char) : Nat := addFraction 0 fraction

/-- Six places there are behind the point. -/
theorem addFraction_eq (size : Nat) (ds : List Char) :
    addFraction size ds = size + (10 ^ (6 - (ds.take 6).length) *
      Nat.ofDigitChars 10 (ds.take 6) 0 + if (ds.drop 6).head?.any ('5' ≤ ·) then 1 else 0) := by
  have first : scale.toNat / 10 = 10 ^ 5 := rfl
  rw [addFraction, first, addPlaces_eq (List.length_take_le ..), Nat.add_assoc]

theorem addFraction_eq_add_millionths (size : Nat) (ds : List Char) :
    addFraction size ds = size + millionths ds := by
  rw [millionths, addFraction_eq, addFraction_eq 0, Nat.zero_add]

/-- Up to six digits, zeros fill the places that are left. -/
theorem millionths_of_short {ds : List Char} (short : ds.length ≤ 6) :
    millionths ds = 10 ^ (6 - ds.length) * Nat.ofDigitChars 10 ds 0 := by
  rw [millionths, addFraction_eq, List.take_of_length_le short, List.drop_eq_nil_of_le short,
    Nat.zero_add]
  rfl

/-- Of more digits the seventh tells on which side of the half those behind the sixth stand. -/
theorem millionths_of_long {front tail : List Char} (six : front.length = 6) (c : Char) :
    millionths (front ++ c :: tail) =
      Nat.ofDigitChars 10 front 0 + if 5 ≤ c.toNat - '0'.toNat then 1 else 0 := by
  have taken : (front ++ c :: tail).take 6 = front := by rw [← six, List.take_left]
  have cut : (front ++ c :: tail).drop 6 = c :: tail := by rw [← six, List.drop_left]
  rw [millionths, addFraction_eq, taken, cut, six]
  simp only [List.head?_cons, Option.any_some, decide_eq_true_eq, five_le_iff, Nat.sub_self,
    Nat.pow_zero, Nat.one_mul, Nat.zero_add]

/-- The digits behind the point are rounded to the nearest number of millionths, a half upward. -/
theorem millionths_spec {ds : List Char} (digits : ds.all Char.isDigit = true) :
    2 * (millionths ds * 10 ^ ds.length) ≤
        2 * (Nat.ofDigitChars 10 ds 0 * 1000000) + 10 ^ ds.length ∧
      2 * (Nat.ofDigitChars 10 ds 0 * 1000000) <
        2 * (millionths ds * 10 ^ ds.length) + 10 ^ ds.length := by
  by_cases short : ds.length ≤ 6
  · have exact : millionths ds * 10 ^ ds.length = Nat.ofDigitChars 10 ds 0 * 1000000 := by
      have scale : 10 ^ (6 - ds.length) * 10 ^ ds.length = 1000000 := by
        rw [← Nat.pow_add, Nat.sub_add_cancel short]
      rw [millionths_of_short short, Nat.mul_right_comm, scale, Nat.mul_comm]
    have positive : 0 < 10 ^ ds.length := Nat.pow_pos (by decide)
    omega
  · obtain ⟨front, c, tail, six, rfl⟩ :
        ∃ front c tail, front.length = 6 ∧ ds = front ++ c :: tail := by
      obtain ⟨c, tail, cut⟩ : ∃ c tail, ds.drop 6 = c :: tail :=
        List.exists_cons_of_ne_nil (by simpa using short)
      exact ⟨ds.take 6, c, tail, by simp; omega, by rw [← cut, List.take_append_drop]⟩
    simp only [List.all_append, List.all_cons, Bool.and_eq_true] at digits
    have single := (Text.digitChar_of_isDigit digits.2.1).2
    have below := ofDigitChars_lt digits.2.2
    have places : 10 ^ (front ++ c :: tail).length = 1000000 * (10 * 10 ^ tail.length) := by
      rw [List.length_append, List.length_cons, six]
      ring
    have value : Nat.ofDigitChars 10 (front ++ c :: tail) 0 =
        10 ^ tail.length * (10 * Nat.ofDigitChars 10 front 0 + (c.toNat - '0'.toNat)) +
          Nat.ofDigitChars 10 tail 0 := by
      rw [Nat.ofDigitChars_append, Nat.ofDigitChars_cons, Nat.ofDigitChars_eq_ofDigitChars_zero]
    rw [millionths_of_long six, places, value]
    generalize Nat.ofDigitChars 10 front 0 = before
    generalize Nat.ofDigitChars 10 tail 0 = rest at below ⊢
    generalize c.toNat - '0'.toNat = digit at single ⊢
    generalize 10 ^ tail.length = unit at below ⊢
    have most := Nat.mul_le_mul_left unit (Nat.succ_le_of_lt single)
    split
    · next up =>
      have half := Nat.mul_le_mul_left unit up
      exact ⟨by linarith, by linarith⟩
    · next down =>
      have half := Nat.mul_le_mul_left unit (Nat.lt_of_not_le down)
      exact ⟨by nlinarith, by linarith⟩

/-! ## Spelled numbers -/

/-- A sign as it may stand in front of a number. -/
inductive Sign where
  | absent
  | plus
  | minus
deriving DecidableEq

def Sign.chars : Sign → List Char
  | .absent => []
  | .plus => ['+']
  | .minus => ['-']

/-- The parts of a number: its sign, the digits before the point, and those behind it if a point is
there. -/
structure Spelling where
  sign : Sign
  whole : List Char
  fraction : Option (List Char)

namespace Spelling

variable {d : Spelling}

/-- The digits behind the point, none if there is no point. -/
def behind (d : Spelling) : List Char := d.fraction.getD []

/-- The point and what stands behind it. -/
def pointed : Option (List Char) → List Char
  | some ds => '.' :: ds
  | none => []

/-- The characters of the parts. -/
def chars (d : Spelling) : List Char := d.sign.chars ++ (d.whole ++ pointed d.fraction)

/-- The parts are those of a number: there are digits only, and at least one. -/
structure IsDecimal (d : Spelling) : Prop where
  whole : d.whole.all Char.isDigit = true
  behind : d.behind.all Char.isDigit = true
  nonempty : ¬ (d.whole = [] ∧ d.behind = [])

/-- The number without its sign. -/
def size (d : Spelling) : ℚ :=
  Nat.ofDigitChars 10 d.whole 0 + Nat.ofDigitChars 10 d.behind 0 / 10 ^ d.behind.length

/-- The number that is spelled. -/
def value (d : Spelling) : ℚ := if d.sign = .minus then -d.size else d.size

/-- The whole number of millionths nearest to the number. -/
def nearest (d : Spelling) : ℤ := halfAway (d.value * 1000000)

end Spelling

/-- A text spells a number. -/
structure Spells (text : String) (d : Spelling) : Prop extends d.IsDecimal where
  chars : text.toList = d.chars

/-! ## The parts of a text -/

/-- A text is its sign and what follows. -/
theorem exists_sign (cs : List Char) :
    ∃ sign : Sign, cs = sign.chars ++ (Text.takeSign cs).2 := by
  unfold Text.takeSign
  split
  · exact ⟨.minus, rfl⟩
  · exact ⟨.plus, rfl⟩
  · exact ⟨.absent, rfl⟩

/-- An unsigned text is what stands before the point, the point, and what stands behind it. -/
theorem exists_fraction (cs : List Char) :
    ∃ fraction : Option (List Char), cs = (splitPoint cs).1 ++ Spelling.pointed fraction ∧
      fraction.getD [] = (splitPoint cs).2 := by
  have whole := List.takeWhile_append_dropWhile (p := (· ≠ '.')) (l := cs)
  have first := List.head?_dropWhile_not (· ≠ '.') cs
  rw [splitPoint]
  generalize cs.takeWhile (· ≠ '.') = before at whole
  generalize cs.dropWhile (· ≠ '.') = rest at whole first
  subst whole
  cases rest with
  | nil => exact ⟨none, rfl, rfl⟩
  | cons c more =>
    obtain rfl : c = '.' := by simpa using first
    exact ⟨some more, rfl, rfl⟩

theorem splitPoint_pointed {d : Spelling} (h : d.IsDecimal) :
    splitPoint (d.whole ++ Spelling.pointed d.fraction) = (d.whole, d.behind) := by
  have apart : ∀ c ∈ d.whole, decide (c ≠ '.') = true := by
    intro c member
    have digit := List.all_eq_true.1 h.whole c member
    rw [decide_eq_true_eq]
    rintro rfl
    exact absurd digit (by decide)
  rw [splitPoint, List.takeWhile_append_of_pos apart, List.dropWhile_append_of_pos apart,
    Spelling.behind]
  cases d.fraction <;> simp [Spelling.pointed]

/-- Digits and a point are no sign. -/
theorem ne_sign_of_head? {d : Spelling} (h : d.IsDecimal) {c : Char}
    (first : (d.whole ++ Spelling.pointed d.fraction).head? = some c) : c ≠ '-' ∧ c ≠ '+' := by
  obtain ⟨sign, whole, fraction⟩ := d
  cases whole with
  | nil =>
    cases fraction with
    | none => simp [Spelling.pointed] at first
    | some ds =>
      obtain rfl : '.' = c := by simpa [Spelling.pointed] using first
      decide
  | cons digit more =>
    obtain rfl : digit = c := by simpa using first
    have isDigit := List.all_eq_true.1 h.whole digit (List.mem_cons_self ..)
    constructor
    · rintro rfl
      exact absurd isDigit (by decide)
    · rintro rfl
      exact absurd isDigit (by decide)

theorem takeSign_chars {d : Spelling} (h : d.IsDecimal) :
    Text.takeSign d.chars =
      (decide (d.sign = .minus), d.whole ++ Spelling.pointed d.fraction) := by
  have unsigned := fun c => ne_sign_of_head? h (c := c)
  rw [Spelling.chars]
  cases d.sign with
  | plus | minus => rfl
  | absent =>
    rw [Sign.chars, List.nil_append]
    generalize d.whole ++ Spelling.pointed d.fraction = cs at unsigned
    unfold Text.takeSign
    split
    · exact absurd rfl (unsigned _ rfl).1
    · exact absurd rfl (unsigned _ rfl).2
    · rfl

/-! ## Reading -/

variable {text : String} {d : Spelling}

/-- A text that spells no number is no amount. -/
theorem ofText_of_not_spells (some : text ≠ "") (h : ¬ ∃ d, Spells text d) :
    ofText text = .error (.notDecimal text) := by
  obtain ⟨sign, signed⟩ := exists_sign text.toList
  obtain ⟨fraction, parted, behind⟩ := exists_fraction (Text.takeSign text.toList).2
  have refused :
      ¬ Spelling.IsDecimal ⟨sign, (splitPoint (Text.takeSign text.toList).2).1, fraction⟩ :=
    fun decimal => h ⟨_, decimal, signed.trans (congrArg (sign.chars ++ ·) parted)⟩
  simp only [ofText]
  rw [if_neg some]
  split
  · rfl
  · next nonempty =>
    split
    · rfl
    · next digits =>
      rw [Decidable.not_not] at digits
      refine absurd ⟨digits.1, ?_, ?_⟩ refused
      · rw [Spelling.behind, behind]
        exact digits.2
      · rw [Spelling.behind, behind]
        exact nonempty

theorem Spells.ne_empty (h : Spells text d) : text ≠ "" := by
  rintro rfl
  have empty : d.sign.chars = [] ∧ d.whole = [] ∧ Spelling.pointed d.fraction = [] := by
    simpa [Spelling.chars] using h.chars.symm
  refine h.nonempty ⟨empty.2.1, ?_⟩
  have noPoint := empty.2.2
  rw [Spelling.behind]
  cases fraction : d.fraction with
  | none => rfl
  | some ds => simp [fraction, Spelling.pointed] at noPoint

/-- The number of millionths that is read off the parts. -/
theorem nearest_eq (h : d.IsDecimal) :
    d.nearest = if d.sign = .minus then
        -(Nat.ofDigitChars 10 d.whole 0 * scale + millionths d.behind : ℤ)
      else Nat.ofDigitChars 10 d.whole 0 * scale + millionths d.behind := by
  have size : halfAway (d.size * 1000000) =
      (Nat.ofDigitChars 10 d.whole 0 * scale + millionths d.behind : ℤ) := by
    obtain ⟨low, high⟩ := millionths_spec h.behind
    have unit : (0 : ℚ) < 10 ^ d.behind.length := by positivity
    rw [Spelling.size, halfAway_eq_iff (by positivity)]
    generalize millionths d.behind = m at *
    generalize Nat.ofDigitChars 10 d.behind 0 = f at *
    generalize Nat.ofDigitChars 10 d.whole 0 = w at *
    have low : (2 * (m * 10 ^ d.behind.length) : ℚ) ≤ 2 * (f * 1000000) + 10 ^ d.behind.length := by
      exact_mod_cast low
    have high :
        (2 * (f * 1000000) : ℚ) < 2 * (m * 10 ^ d.behind.length) + 10 ^ d.behind.length := by
      exact_mod_cast high
    generalize (10 : ℚ) ^ d.behind.length = u at *
    have parts : (w + f / u) * 1000000 = w * 1000000 + f * 1000000 / u := by ring
    push_cast [scale]
    rw [parts]
    have below : (m : ℚ) - 1 / 2 ≤ f * 1000000 / u := by
      rw [le_div_iff₀ unit]
      linarith
    have above : f * 1000000 / u < (m : ℚ) + 1 / 2 := by
      rw [div_lt_iff₀ unit]
      linarith
    exact ⟨by linarith, by linarith⟩
  rw [Spelling.nearest, Spelling.value]
  split
  · rw [neg_mul, halfAway_neg, size]
  · exact size

/-- A text that spells a number is read as the nearest number of millionths, if that is in range. -/
theorem ofText_of_spells (h : Spells text d) :
    ofText text = (ofRaw? d.nearest).elim (.error (.outOfRange text)) .ok := by
  have decimal := h.toIsDecimal
  have nearest := nearest_eq decimal
  have million : (scale.toNat : ℤ) = scale := rfl
  simp only [ofText, h.chars, takeSign_chars decimal, splitPoint_pointed decimal,
    decide_eq_true_eq]
  rw [if_neg h.ne_empty, if_neg decimal.nonempty,
    if_neg (not_not.2 ⟨decimal.whole, decimal.behind⟩), wholeOf?_eq (Nat.zero_le _)]
  by_cases fits : Nat.ofDigitChars 10 d.whole 0 ≤ 0x7FFFFFFFFFFFFFFF
  · rw [if_pos fits]
    simp only [addFraction_eq_add_millionths, Nat.cast_add, Nat.cast_mul, million]
    rw [← nearest]
    cases ofRaw? d.nearest <;> rfl
  · -- the digits before the point alone are too many for an amount
    have far : ofRaw? d.nearest = none := by
      rw [ofRaw?_eq_none_iff, nearest]
      simp only [scale]
      split <;> omega
    rw [if_neg fits, far]
    rfl

/-- A text that spells a number is not taken for anything else. -/
theorem Spells.ofText_ne (h : Spells text d) :
    ofText text ≠ .error .empty ∧ ∀ said, ofText text ≠ .error (.notDecimal said) := by
  rw [ofText_of_spells h]
  cases ofRaw? d.nearest <;> exact ⟨nofun, nofun⟩

theorem ofText_eq_empty_iff : ofText text = .error .empty ↔ text = "" := by
  constructor
  · intro read
    by_contra some
    by_cases spells : ∃ d, Spells text d
    · obtain ⟨d, spells⟩ := spells
      exact spells.ofText_ne.1 read
    · rw [ofText_of_not_spells some spells] at read
      cases read
  · rintro rfl
    rfl

theorem ofText_eq_notDecimal_iff {said : String} :
    ofText text = .error (.notDecimal said) ↔
      said = text ∧ text ≠ "" ∧ ¬ ∃ d, Spells text d := by
  constructor
  · intro read
    have some : text ≠ "" := by
      rintro rfl
      cases read
    have unspelled : ¬ ∃ d, Spells text d := by
      rintro ⟨d, spells⟩
      exact spells.ofText_ne.2 said read
    rw [ofText_of_not_spells some unspelled] at read
    cases read
    exact ⟨rfl, some, unspelled⟩
  · rintro ⟨rfl, some, unspelled⟩
    exact ofText_of_not_spells some unspelled

/-- An amount is read off a text exactly if the text spells a number that it is nearest to. -/
theorem ofText_eq_ok_iff {a : Amount} :
    ofText text = .ok a ↔ ∃ d, Spells text d ∧ d.nearest = a.raw := by
  constructor
  · intro read
    by_cases spells : ∃ d, Spells text d
    · obtain ⟨d, spells⟩ := spells
      refine ⟨d, spells, ofRaw?_eq_some_iff.1 ?_⟩
      rw [ofText_of_spells spells] at read
      cases found : ofRaw? d.nearest with
      | none =>
        rw [found] at read
        cases read
      | some b =>
        rw [found] at read
        cases read
        rfl
    · by_cases empty : text = ""
      · rw [ofText_eq_empty_iff.2 empty] at read
        cases read
      · rw [ofText_of_not_spells empty spells] at read
        cases read
  · rintro ⟨d, spells, nearest⟩
    rw [ofText_of_spells spells, ofRaw?_eq_some_iff.2 nearest]
    rfl

/-- A text is read exactly if it spells a number, and then as the nearest number of millionths, if
that is in range. -/
theorem ofText_eq_nearest (text : String) :
    (ofText text = .error .empty ↔ text = "") ∧
      (∀ said, ofText text = .error (.notDecimal said) ↔
        said = text ∧ text ≠ "" ∧ ¬ ∃ d, Spells text d) ∧
      ∀ d, Spells text d → ofText text =
        if h : -0x8000000000000000 ≤ d.nearest ∧ d.nearest < 0x8000000000000000 then
          .ok ⟨d.nearest, h⟩
        else .error (.outOfRange text) := by
  refine ⟨ofText_eq_empty_iff, fun said => ofText_eq_notDecimal_iff, fun d spells => ?_⟩
  rw [ofText_of_spells spells, ofRaw?]
  split <;> rfl

theorem ofText_eq_nearest_carried :
    Spells "-.9999995" ⟨.minus, [], some ['9', '9', '9', '9', '9', '9', '5']⟩ ∧
      ofText "-.9999995" = .ok ⟨-1000000, by decide⟩ := by
  have spells : Spells "-.9999995" ⟨.minus, [], some ['9', '9', '9', '9', '9', '9', '5']⟩ :=
    ⟨⟨by decide, by decide, by decide⟩, by decide⟩
  have nearest : Spelling.nearest ⟨.minus, [], some ['9', '9', '9', '9', '9', '9', '5']⟩ =
      -1000000 := by decide +kernel
  refine ⟨spells, ?_⟩
  rw [(ofText_eq_nearest _).2.2 _ spells]
  simp only [nearest]
  rfl

end Amount

end TableMotion
