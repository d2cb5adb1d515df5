import TableMotion.Proofs.Ingesting
import TableMotion.Proofs.Numerals

/-!
# Trees that return from JSON

A tree of whole amounts, whose texts are read as themselves, is read from its JSON as it was. Every
value without fractional amounts is taken in as such a tree: what fits becomes a whole amount, and
the text of what does not fit is no amount either (`ofInteger_eq`, `ofReal_of_large`).
-/

namespace TableMotion

/-! ## Large numbers -/

namespace Binary64

/-- An integer is rounded to no less than one that is below it and held exactly. -/
theorem le_unitsOf_ofRatio {m n : Nat} (h : m ≤ n) (negative : Bool)
    (held : m * unitsPerOne ≤ unitsOf (ofRatio false m 1).magnitude) :
    m * unitsPerOne ≤ unitsOf (ofRatio negative n 1).magnitude :=
  Nat.le_trans held (unitsOf_mono (min_le_min_right _
    (roundUnits_mono (Nat.mul_le_mul_right _ h))))

/-- A product is rounded to no less than one of smaller factors that is held exactly. -/
theorem le_unitsOf_mul {x y : Binary64} (finiteX : x.isFinite = true) (finiteY : y.isFinite = true)
    {m n : Nat} (hx : m * unitsPerOne ≤ unitsOf x.magnitude)
    (hy : n * unitsPerOne ≤ unitsOf y.magnitude)
    (held : m * n * unitsPerOne ≤ unitsOf (ofRatio false (m * n) 1).magnitude) :
    m * n * unitsPerOne ≤ unitsOf (x * y).magnitude := by
  have factors : m * n * unitsPerOne * unitsPerOne ≤ unitsOf x.magnitude * unitsOf y.magnitude :=
    calc m * n * unitsPerOne * unitsPerOne
        = m * unitsPerOne * (n * unitsPerOne) := by ring
      _ ≤ unitsOf x.magnitude * unitsOf y.magnitude := Nat.mul_le_mul hx hy
  have grows : roundUnits (m * n * unitsPerOne * unitsPerOne) (1 * unitsPerOne) ≤
      roundUnits (unitsOf x.magnitude * unitsOf y.magnitude) (1 * unitsPerOne) :=
    roundUnits_mono factors
  rw [roundUnits_mul_mul unitsPerOne_pos, Nat.one_mul] at grows
  rw [mul_spec finiteX finiteY]
  exact Nat.le_trans held (unitsOf_mono (min_le_min_right _ grows))

theorem ofScaled_negativeZero : ofScaled true ⟨0, 0⟩ = zero true := by decide +kernel

/-- Digits that fill 64 bits are scaled to at least `2 ^ 63`, and so are those that fill 61 bits if
zeros follow them. -/
theorem le_unitsOf_ofScaled {n k : Nat} (fits : n < 0x10000000000000000)
    (large : 0x8000000000000000 ≤ n ∧ k = 0 ∨ 0x1000000000000000 ≤ n ∧ 0 < k) {negative : Bool}
    (finite : (ofScaled negative ⟨n, k⟩).isFinite = true) :
    0x8000000000000000 * unitsPerOne ≤ unitsOf (ofScaled negative ⟨n, k⟩).magnitude := by
  have held : ∀ m ∈ [0x8000000000000000, 0x1000000000000000, 8, 1],
      m * unitsPerOne ≤ unitsOf (ofRatio false m 1).magnitude := by decide +kernel
  obtain ⟨m, p, product, digits, power⟩ : ∃ m p, m * p = 0x8000000000000000 ∧
      m * unitsPerOne ≤ unitsOf (ofInt n).magnitude ∧
        p * unitsPerOne ≤ unitsOf (powerOfTen k).magnitude := by
    rcases large with ⟨whole, rfl⟩ | ⟨cut, zeros⟩
    · exact ⟨_, 1, rfl, le_unitsOf_ofRatio whole _ (held _ (by simp)),
        le_unitsOf_ofRatio (tenTo_pos 0) _ (held _ (by simp))⟩
    · have eight : 8 ≤ tenTo k := Nat.le_trans (by decide) (tenTo_mono zeros)
      exact ⟨_, 8, rfl, le_unitsOf_ofRatio cut _ (held _ (by simp)),
        le_unitsOf_ofRatio eight _ (held _ (by simp))⟩
  have finiteDigits : (ofInt n).isFinite = true := isFinite_ofInt (by omega)
  rw [isFinite, magnitude_ofScaled] at finite
  rw [magnitude_ofScaled, ← product]
  by_cases small : k ≤ greatestExponent
  · rw [scale_natCast small]
    exact le_unitsOf_mul finiteDigits (isFinite_powerOfTen small) digits power
      (by rw [product]; exact held _ (by simp))
  · have some : (ofInt n).isZero = false := by
      apply decide_eq_false
      intro zero
      rw [zero, unitsOf_zero, Nat.le_zero] at digits
      have none : m = 0 := (Nat.mul_eq_zero.1 digits).resolve_right (Nat.ne_of_gt unitsPerOne_pos)
      simp [none] at product
    rw [scale, if_pos (Int.natCast_nonneg k), if_neg (by simpa using small), some,
      if_neg Bool.false_ne_true] at finite
    exact absurd finite (by decide)

/-- A number from `2 ^ 63` on is written with a power of ten. -/
theorem mem_write_of_large {m : Nat} (large : 0x8000000000000000 * unitsPerOne ≤ unitsOf m) :
    'e' ∈ NumberStyle.document.write (shortest .toEven m) := by
  have reads := readsAs_shortest .toEven m
  generalize shortest .toEven m = d at reads
  obtain ⟨low, -, -⟩ := readsAs_iff.1 reads
  have digits : d.digits < tenTo (Nat.toDigits 10 d.digits).length :=
    (Nat.length_toDigits_le_iff (by decide)
      (List.length_pos_iff.2 Nat.toDigits_ne_nil)).1 (Nat.le_refl _)
  -- the decimal that is found is above the midpoint below the number, so above half of it
  have size : 0x4000000000000000 * tenTo (-d.exponent).toNat ≤
      d.digits * tenTo d.exponent.toNat := by
    have scaled := Nat.mul_le_mul_right (tenTo (-d.exponent).toNat) large
    apply Nat.le_of_mul_le_mul_right _ unitsPerOne_pos
    linarith [Nat.zero_le (unitsOf (m - 1) * tenTo (-d.exponent).toNat)]
  have width : 18 + (-d.exponent).toNat < (Nat.toDigits 10 d.digits).length + d.exponent.toNat := by
    by_contra short
    have grown := tenTo_mono (Nat.le_of_not_lt short)
    rw [tenTo_add, tenTo_add, show tenTo 18 = 1000000000000000000 from rfl] at grown
    have above := Nat.mul_lt_mul_of_pos_right digits (tenTo_pos d.exponent.toNat)
    have positive := tenTo_pos (-d.exponent).toNat
    omega
  have some : d.digits ≠ 0 := by
    intro zero
    rw [zero, Nat.zero_mul] at size
    have := tenTo_pos (-d.exponent).toNat
    omega
  have powered : NumberStyle.document.isPlain
      (d.exponent + (Nat.toDigits 10 d.digits).length - 1) = false := by
    simp [NumberStyle.isPlain, NumberStyle.document]
    omega
  simp [NumberStyle.write, some, powered, NumberStyle.scientific]

end Binary64

namespace Amount

open Binary64

/-- The least whole number that no amount holds, whatever its sign. -/
def outgrown : Nat := 9223372036855

theorem outgrown_le_natAbs {n : ℤ} (h : ofInt? n = none) : outgrown ≤ n.natAbs := by
  have range := ofRaw?_eq_none_iff.1 h
  simp only [scale, outgrown] at *
  omega

/-- A number of this size stays out of range when its millionths are rounded. -/
theorem nearest_of_outgrown {units unit p : Nat} (normal : binade ≤ unit)
    (large : outgrown * unit ≤ units)
    (hp : unitsOf (roundUnits (units * 1000000 * unit) (1 * unit)) = p) :
    0x8000000000000000 < (2 * p + unit) / (2 * unit) := by
  have positive : 0 < unit := Nat.lt_of_lt_of_le (by decide) normal
  have above : binade * 1 ≤ units * 1000000 := by
    simp only [outgrown] at large
    omega
  -- some two hundred thousand millionths too many, of which rounding takes away a thousand or so
  have error := (roundUnits_mul_error (by decide) positive above).2
  rw [hp] at error
  simp only [binade, outgrown] at *
  rw [Nat.lt_div_iff_mul_lt (by omega)]
  omega

theorem ofBinary64?_of_outgrown {x : Binary64}
    (large : outgrown * unitsPerOne ≤ unitsOf x.magnitude) : ofBinary64? x = none := by
  obtain ⟨finiteScale, -, unitsScale⟩ := ofInt_spec (show scale.natAbs ≤ 2 * binade by decide)
  rw [show scale.natAbs = 1000000 from rfl] at unitsScale
  simp only [ofBinary64?]
  split
  · next finite =>
    obtain ⟨finiteX, finiteP⟩ := finite
    have far := nearest_of_outgrown (by decide +kernel) large rfl
    have product := mul_spec finiteX finiteScale
    rw [unitsScale, ← Nat.mul_assoc] at product
    rw [Nat.one_mul] at far
    rw [product] at finiteP ⊢
    generalize roundUnits (unitsOf x.magnitude * 1000000 * unitsPerOne) unitsPerOne = m at *
    generalize (x.negative != (Binary64.ofInt scale).negative) = negative at *
    have below : min m 0x7FF0000000000000 < infiniteMagnitude := of_decide_eq_true finiteP
    obtain ⟨size, -⟩ := ofMagnitude_of_lt (m := m)
      (by simp only [infiniteMagnitude] at *; omega) negative
    rw [nearestInt, if_neg (by simp [isNaN_eq_false_of_isFinite finiteP]), size,
      ofRaw?_eq_none_iff]
    generalize (2 * unitsOf m + unitsPerOne) / (2 * unitsPerOne) = n at far
    simp only []
    split <;> omega
  · rfl

/-- Signs, digits and points are no letters. -/
theorem Spells.not_mem {text : String} {d : Spelling} (h : Spells text d) : 'e' ∉ text.toList := by
  have whole := fun member => List.all_eq_true.1 h.whole 'e' member
  have behind := fun member => List.all_eq_true.1 h.behind 'e' member
  have letter : Char.isDigit 'e' = false := by decide
  simp only [letter, Spelling.behind] at whole behind
  rw [h.chars, Spelling.chars]
  intro member
  rcases List.mem_append.1 member with sign | rest
  · generalize d.sign = s at sign
    revert sign
    cases s <;> decide
  · rcases List.mem_append.1 rest with digit | pointed
    · cases whole digit
    · cases fraction : d.fraction with
      | none => simp [fraction, Spelling.pointed] at pointed
      | some ds =>
        rw [fraction, Option.getD_some] at behind
        simp only [fraction, Spelling.pointed, List.mem_cons] at pointed
        rcases pointed with point | digit
        · revert point
          decide
        · cases behind digit

end Amount

/-! ## Values without fractional amounts -/

namespace Json

mutual

/-- Numbers are written without a fraction and without a power of ten, and no string becomes an
amount that is not whole. -/
def IsIntegral : Json → Prop
  | .real x => ∃ negative whole, Reader.numberOf negative whole none none = some (.real x)
  | .text s => ∀ a, Tree.ofJson (.text s) = .amount a → a.isWhole = true
  | .array items => IsIntegralItems items
  | .object members => IsIntegralMembers members
  | .null | .bool _ | .integer _ => True

/-- No item has fractional amounts. -/
def IsIntegralItems : List Json → Prop
  | [] => True
  | v :: rest => IsIntegral v ∧ IsIntegralItems rest

/-- No member holds a value with fractional amounts. -/
def IsIntegralMembers : List (String × Json) → Prop
  | [] => True
  | (_, v) :: rest => IsIntegral v ∧ IsIntegralMembers rest

end

open Binary64 in
/-- A number without a fraction and a power of ten is an integer of 64 bits unless it is large, or
the zero with a sign. -/
theorem Reader.real_of_numberOf {negative : Bool} {whole : List Char} {x : FiniteBinary64}
    (h : numberOf negative whole none none = some (.real x)) :
    x.1 = zero true ∨ 0x8000000000000000 * unitsPerOne ≤ unitsOf x.1.magnitude := by
  simp only [numberOf, Option.isNone_none, Option.getD_none, true_and] at h
  split at h
  · cases h
  · next unsigned =>
    split at h
    · cases h
    · next signed =>
      obtain ⟨fits, all⟩ := gather_spec (n := 0) (by decide) whole
      have gathered : decimalOf whole [] 0 = ⟨(gather 0 whole).1, (gather 0 whole).2.length⟩ := by
        simp [decimalOf, gather]
      obtain ⟨y, found, real⟩ := Option.map_eq_some_iff.1 h
      cases real
      have read := eq_of_finite? found
      have finite := x.2
      rw [gathered] at read
      rw [← read] at finite ⊢
      rcases all with ⟨nothing, digits⟩ | ⟨cut, filled, -⟩
      · rw [digits] at fits
        rw [nothing, digits, List.length_nil] at finite ⊢
        generalize Nat.ofDigitChars 10 whole 0 = n at *
        rcases Nat.eq_zero_or_pos n with rfl | some
        · left
          have signed : negative = true := by simpa using unsigned
          rw [signed]
          exact ofScaled_negativeZero
        · right
          have large : 0x8000000000000000 ≤ n := by
            cases negative <;> simp at unsigned signed <;> omega
          exact le_unitsOf_ofScaled fits (.inl ⟨large, rfl⟩) finite
      · right
        exact le_unitsOf_ofScaled fits (.inr ⟨filled, List.length_pos_iff.2 cut⟩) finite

end Json

/-! ## Trees that return -/

namespace Tree

open Amount

/-- An integer becomes the amount of as many millions, and its digits if there is none. -/
theorem ofInteger_eq (n : ℤ) :
    ofInteger n = (ofInt? n).elim (.text (String.ofList (Json.integerChars n))) .amount := by
  cases fits : ofInt? n with
  | some a => exact ofInteger_of_ofInt? fits
  | none =>
    have large : outgrown * Binary64.unitsPerOne ≤ Binary64.unitsOf (Binary64.ofInt n).magnitude :=
      Binary64.le_unitsOf_ofRatio (outgrown_le_natAbs fits) (n < 0)
        (by decide +kernel)
    have nothing := ofBinary64?_of_outgrown large
    rw [ofInteger, fits, nothing, ite_self]
    rfl

/-- A large number becomes its text, which is no amount. -/
theorem ofReal_of_large {x : FiniteBinary64}
    (large : 0x8000000000000000 * Binary64.unitsPerOne ≤ Binary64.unitsOf x.1.magnitude) :
    ofReal x = .text (String.ofList (Json.realChars x)) ∧
      ofString (String.ofList (Json.realChars x)) = .text (String.ofList (Json.realChars x)) := by
  have outgrown : outgrown * Binary64.unitsPerOne ≤ Binary64.unitsOf x.1.magnitude :=
    Nat.le_trans (Nat.mul_le_mul_right _ (by decide)) large
  constructor
  · rw [ofReal, ofBinary64?_of_outgrown outgrown]
  · rcases ofString_cases (String.ofList (Json.realChars x)) with ⟨a, read⟩ | kept
    · obtain ⟨d, spells, -⟩ := ofString_eq_amount_iff.1 read
      refine absurd ?_ spells.not_mem
      rw [String.toList_ofList, Json.Reader.realChars_eq]
      exact List.mem_append_right _ (Binary64.mem_write_of_large large)
    · exact kept

/-- A whole amount, or a text that is read as itself, what is below a node aside. -/
def isSettled : Tree → Bool
  | .amount a => a.isWhole
  | .text s => ofJson (.text s) = .text s
  | .null | .bool _ | .list _ | .map _ => true

theorem lasts_of_isSettled (t : Tree) (h : t.isSettled = true) : t.lasts some = true := by
  cases t with
  | amount a => simp [lasts, isHeld, show a.isWhole = true from h]
  | text s => exact h
  | null | bool | list | map => rfl

theorem isWhole_of_ofInt? {n : ℤ} {a : Amount} (h : ofInt? n = some a) : a.isWhole = true := by
  have exact : n * scale = a.raw := ofRaw?_eq_some_iff.1 h
  rw [isWhole, ← exact]
  exact decide_eq_true (Int.mul_emod_left ..)

theorem isSettled_ofInteger (n : ℤ) : (ofInteger n).all isSettled = true := by
  rw [ofInteger_eq]
  cases fits : ofInt? n with
  | some a => exact isWhole_of_ofInt? fits
  | none =>
    have kept := ofString_integerChars n none rfl
    rw [Spelling.pointed, List.append_nil, fits] at kept
    exact decide_eq_true kept

theorem isSettled_ofReal {x : FiniteBinary64} (h : (Json.real x).IsIntegral) :
    (ofReal x).all isSettled = true := by
  obtain ⟨negative, whole, read⟩ := h
  rcases Json.Reader.real_of_numberOf read with zero | large
  · obtain ⟨x, finite⟩ := x
    subst zero
    -- the sign of zero is lost in an amount
    have nothing : ofBinary64? (Binary64.zero true) = some ⟨0, by decide⟩ := by decide +kernel
    rw [ofReal, nothing]
    rfl
  · obtain ⟨written, kept⟩ := ofReal_of_large large
    rw [written]
    exact decide_eq_true kept

theorem isSettled_ofString {s : String} (h : (Json.text s).IsIntegral) :
    (ofString s).all isSettled = true := by
  rcases ofString_cases s with ⟨a, read⟩ | kept
  · rw [read]
    exact h a read
  · rw [kept]
    exact decide_eq_true kept

mutual

/-- What is taken from a value without fractional amounts is settled. -/
theorem isSettled_ofJson : (j : Json) → j.IsIntegral → (ofJson j).all isSettled = true
  | .null, _ | .bool _, _ => rfl
  | .integer n, _ => isSettled_ofInteger n
  | .real _, h => isSettled_ofReal h
  | .text _, h => isSettled_ofString h
  | .array items, h => by
    rw [ofJson, all, isSettled_ofItems items h]
    rfl
  | .object members, h => by
    rw [ofJson, all, isSettled_ofMembers members h]
    rfl

theorem isSettled_ofItems :
    (items : List Json) → Json.IsIntegralItems items → allItems isSettled (ofItems items) = true
  | [], _ => rfl
  | v :: rest, h => by
    rw [ofItems, allItems, isSettled_ofJson v h.1, isSettled_ofItems rest h.2]
    rfl

theorem isSettled_ofMembers :
    (members : List (String × Json)) → Json.IsIntegralMembers members →
      allFields isSettled (ofMembers members) = true
  | [], _ => rfl
  | (_, v) :: rest, h => by
    rw [ofMembers, allFields, isSettled_ofJson v h.1, isSettled_ofMembers rest h.2]
    rfl

end

theorem ofJson_toJson_of_isSettled {t : Tree} (h : t.all isSettled = true) :
    ofJson t.toJson = t :=
  (ofJson_toJson_eq_iff t).2 (all_imp lasts_of_isSettled t h)

/-- A tree of whole amounts whose texts are read as themselves is read from its JSON as it was.
Every value without fractional amounts is taken in as such a tree, and so a second conversion
changes nothing. -/
theorem ofJson_returns :
    (∀ t : Tree, t.all isSettled = true → ofJson t.toJson = t) ∧
    ∀ j : Json, j.IsIntegral →
      (ofJson j).all isSettled = true ∧ ofJson (ofJson j).toJson = ofJson j := by
  refine ⟨fun t => ofJson_toJson_of_isSettled, fun j integral => ?_⟩
  have settled := isSettled_ofJson j integral
  exact ⟨settled, ofJson_toJson_of_isSettled settled⟩

theorem ofJson_returns_extremes :
    ofJson (toJson (.map [("", .list [.amount ⟨-9223372036854000000, by decide⟩, .text "1e3"])])) =
        .map [("", .list [.amount ⟨-9223372036854000000, by decide⟩, .text "1e3"])] ∧
      ofJson (ofJson (.array [.integer 0xFFFFFFFFFFFFFFFF, .text "5.00", .text "007"])).toJson =
        ofJson (.array [.integer 0xFFFFFFFFFFFFFFFF, .text "5.00", .text "007"]) := by
  have five : ofString "5.00" = .amount ⟨5000000, by decide⟩ := by decide +kernel
  have padded : ofString "007" = .text "007" := by decide +kernel
  have integral :
      (Json.array [.integer 0xFFFFFFFFFFFFFFFF, .text "5.00", .text "007"]).IsIntegral := by
    refine ⟨trivial, fun a read => ?_, fun a read => ?_, trivial⟩
    · rw [ofJson, five] at read
      cases read
      rfl
    · rw [ofJson, padded] at read
      cases read
  exact ⟨ofJson_returns.1 _ (by decide +kernel), (ofJson_returns.2 _ integral).2⟩

end Tree

end TableMotion
