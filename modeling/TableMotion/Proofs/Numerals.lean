import TableMotion.Json.Printer
import TableMotion.Json.Reader
import TableMotion.Proofs.Scaling
import TableMotion.Text.Digits

/-!
# Numbers of documents

What a reader does is told by what it gives for a text and what it leaves of it. An integer that is
written in a document is read as itself (`number_integerChars`). A floating number is read as the
same number wherever it stands (`number_realChars`), which is itself if its decimal is short enough
to be scaled exactly (`again?_eq_self`).
-/

namespace TableMotion

/-! ## Steps of a reader -/

namespace Json.Reader

variable {α β : Type}

@[simp] theorem pure_apply (a : α) (cs : List Char) : (pure a : Reader α) cs = .ok (a, cs) := rfl

@[simp] theorem bind_apply (r : Reader α) (f : α → Reader β) (cs : List Char) :
    (r >>= f) cs = (r cs).bind fun p => f p.1 p.2 := rfl

@[simp] theorem map_apply (f : α → β) (r : Reader α) (cs : List Char) :
    (f <$> r) cs = (r cs).map fun p => (f p.1, p.2) := rfl

@[simp] theorem get_apply (cs : List Char) : (get : Reader (List Char)) cs = .ok (cs, cs) := rfl

@[simp] theorem set_apply (left cs : List Char) :
    (set left : Reader PUnit) cs = .ok (⟨⟩, left) := rfl

@[simp] theorem throw_apply (fault : Fault) (cs : List Char) :
    (throw fault : Reader α) cs = .error fault := rfl

@[simp] theorem except_pure {ε : Type} (a : α) : (pure a : Except ε α) = .ok a := rfl

@[simp] theorem except_bind {ε : Type} (r : Except ε α) (f : α → Except ε β) :
    r >>= f = r.bind f := rfl

@[simp] theorem except_bind_ok {ε : Type} (a : α) (f : α → Except ε β) :
    (Except.ok a).bind f = f a := rfl

@[simp] theorem except_bind_error {ε : Type} (e : ε) (f : α → Except ε β) :
    (Except.error e).bind f = .error e := rfl

@[simp] theorem except_map_ok {ε : Type} (f : α → β) (a : α) :
    (Except.ok a : Except ε α).map f = .ok (f a) := rfl

@[simp] theorem except_map_error {ε : Type} (f : α → β) (e : ε) :
    (Except.error e : Except ε α).map f = .error e := rfl

@[simp] theorem advance_apply (cs : List Char) : advance cs = .ok (⟨⟩, cs.drop 1) := rfl

@[simp] theorem peek_apply (cs : List Char) :
    peek cs = .ok ((cs.dropWhile isBlank).head?, cs.dropWhile isBlank) := rfl

/-! ## Digits -/

/-- What follows does not go on with the digits before it. -/
def EndsDigits (rest : List Char) : Prop := ∀ c ∈ rest.head?, c.isDigit = false

/-- What follows does not go on with the number before it. -/
def EndsNumber (rest : List Char) : Prop :=
  ∀ c ∈ rest.head?, c.isDigit = false ∧ c ≠ '.' ∧ c ≠ 'e' ∧ c ≠ 'E'

theorem EndsNumber.endsDigits {rest : List Char} (h : EndsNumber rest) : EndsDigits rest :=
  fun c hc => (h c hc).1

variable {ds rest : List Char}

theorem digits_append (hd : ds.all Char.isDigit = true) (ends : EndsDigits rest) :
    digits (ds ++ rest) = .ok (ds, rest) := by
  rw [List.all_eq_true] at hd
  unfold digits
  simp only [get_apply, bind_apply, except_bind_ok, set_apply, pure_apply,
    List.dropWhile_append_of_pos hd, List.takeWhile_append_of_pos hd]
  cases rest with
  | nil => simp
  | cons c rest => simp [ends c rfl]

theorem someDigits_append (hd : ds.all Char.isDigit = true) (some : ds ≠ [])
    (ends : EndsDigits rest) (atEnd : Fault) :
    someDigits atEnd (ds ++ rest) = .ok (ds, rest) := by
  have taken := digits_append hd ends
  obtain ⟨c, more, rfl⟩ := List.exists_cons_of_ne_nil some
  rw [List.all_cons, Bool.and_eq_true] at hd
  rw [List.cons_append] at taken ⊢
  unfold someDigits
  simp [hd.1, taken]

theorem wholeDigits_append (h : Text.IsCanonical ds) (ends : EndsDigits rest) (atEnd : Fault) :
    wholeDigits atEnd (ds ++ rest) = .ok (ds, rest) := by
  obtain ⟨some, hd, lead⟩ := h
  have single : ¬ (ds.length > 1 ∧ ds.head? = .some '0') := by
    rintro ⟨long, zero⟩
    rcases lead with one | other
    · omega
    · exact other zero
  unfold wholeDigits
  simp [someDigits_append hd some ends, single]

/-! ## Numerals -/

/-- The parts of a number as they stand in a document: a sign, digits, digits behind a point, and a
signed power of ten. -/
structure Numeral where
  negative : Bool
  whole : List Char
  fraction : Option (List Char)
  power : Option (Bool × List Char)

namespace Numeral

/-- The part behind the point. -/
def fractionChars : Option (List Char) → List Char
  | some ds => '.' :: ds
  | none => []

/-- The power of ten. -/
def powerChars : Option (Bool × List Char) → List Char
  | some (negative, ds) => 'e' :: (if negative then '-' else '+') :: ds
  | none => []

/-- The characters of a numeral. -/
def chars (n : Numeral) : List Char :=
  (if n.negative then ['-'] else []) ++ n.whole ++ fractionChars n.fraction ++ powerChars n.power

/-- The exponent of a power of ten. -/
def exponent (power : Bool × List Char) : Int :=
  if power.1 then -(Nat.ofDigitChars 10 power.2 0 : Int) else Nat.ofDigitChars 10 power.2 0

/-- The decimal of a numeral, its sign aside. -/
def decimal (n : Numeral) : Decimal :=
  ⟨Nat.ofDigitChars 10 (n.whole ++ n.fraction.getD []) 0,
    (n.power.map exponent).getD 0 - (n.fraction.getD []).length⟩

/-- The digits before the point are canonical, and digits stand wherever they may. -/
structure IsWritten (n : Numeral) : Prop where
  whole : Text.IsCanonical n.whole
  fraction : ∀ ds ∈ n.fraction, ds ≠ [] ∧ ds.all Char.isDigit = true
  power : ∀ p ∈ n.power, p.2 ≠ [] ∧ p.2.all Char.isDigit = true

end Numeral

theorem fractionDigits_append {fraction : Option (List Char)}
    (hf : ∀ ds ∈ fraction, ds ≠ [] ∧ ds.all Char.isDigit = true) (ends : EndsDigits rest)
    (apart : fraction = none → rest.head? ≠ some '.') (atEnd : Fault) :
    fractionDigits atEnd (Numeral.fractionChars fraction ++ rest) = .ok (fraction, rest) := by
  unfold fractionDigits
  cases fraction with
  | none =>
    have other := apart rfl
    simp [Numeral.fractionChars]
  | some ds =>
    obtain ⟨some, hd⟩ := hf ds rfl
    simp [Numeral.fractionChars, someDigits_append hd some ends]

theorem powerOfTen_append {power : Option (Bool × List Char)}
    (hp : ∀ p ∈ power, p.2 ≠ [] ∧ p.2.all Char.isDigit = true) (ends : EndsNumber rest)
    (atEnd : Fault) :
    powerOfTen atEnd (Numeral.powerChars power ++ rest) =
      .ok (power.map Numeral.exponent, rest) := by
  unfold powerOfTen
  cases power with
  | none =>
    simp only [Numeral.powerChars, List.nil_append, get_apply, bind_apply, except_bind_ok]
    cases rest with
    | nil => rfl
    | cons c rest =>
      obtain ⟨-, -, lower, upper⟩ := ends c rfl
      simp [lower, upper]
  | some p =>
    obtain ⟨negative, ds⟩ := p
    obtain ⟨some, hd⟩ := hp _ rfl
    have taken := someDigits_append hd some ends.endsDigits atEnd
    cases negative <;> simp [Numeral.powerChars, Numeral.exponent, taken]

/-- What follows the digits before the point. -/
theorem endsDigits_fraction (fraction : Option (List Char)) (power : Option (Bool × List Char))
    (ends : EndsNumber rest) :
    EndsDigits (Numeral.fractionChars fraction ++ (Numeral.powerChars power ++ rest)) := by
  cases fraction with
  | some ds => simp [EndsDigits, Numeral.fractionChars]
  | none =>
    cases power with
    | some p => simp [EndsDigits, Numeral.fractionChars, Numeral.powerChars]
    | none => exact ends.endsDigits

/-- What follows the digits behind the point. -/
theorem endsDigits_power (power : Option (Bool × List Char)) (ends : EndsNumber rest) :
    EndsDigits (Numeral.powerChars power ++ rest) ∧
      (Numeral.powerChars power ++ rest).head? ≠ some '.' := by
  cases power with
  | some p => simp [EndsDigits, Numeral.powerChars]
  | none =>
    refine ⟨ends.endsDigits, fun point => ?_⟩
    exact (ends '.' point).2.1 rfl

/-- What is found is read, and what cannot be found breaks the grammar. -/
def readOf {α : Type} (found : Option α) (rest : List Char) : Except Fault (α × List Char) :=
  found.elim (.error .malformed) fun a => .ok (a, rest)

@[simp] theorem readOf_some {α : Type} (a : α) (rest : List Char) :
    readOf (some a) rest = .ok (a, rest) := rfl

@[simp] theorem readOf_none {α : Type} (rest : List Char) :
    readOf (none : Option α) rest = .error .malformed := rfl

/-- A numeral is read as the number of its parts. -/
theorem number_numeral {n : Numeral} (h : n.IsWritten) (ends : EndsNumber rest) :
    number (n.chars ++ rest) =
      readOf (numberOf n.negative n.whole n.fraction (n.power.map Numeral.exponent)) rest := by
  obtain ⟨negative, whole, fraction, power⟩ := n
  obtain ⟨ends', apart⟩ := endsDigits_power power ends
  have readWhole := wholeDigits_append h.whole (endsDigits_fraction fraction power ends) .truncated
  have readFraction := fractionDigits_append h.fraction ends' (fun _ => apart) .truncated
  have readPower := powerOfTen_append h.power ends .truncated
  obtain ⟨c, more, rfl⟩ : ∃ c more, whole = c :: more := List.exists_cons_of_ne_nil h.whole.1
  have unsigned : c ≠ '-' := by
    rintro rfl
    have := h.whole.2.1
    simp at this
  simp only [List.cons_append] at readWhole
  unfold number
  cases found : numberOf negative (c :: more) fraction (power.map Numeral.exponent) <;>
    cases negative <;>
    simp [Numeral.chars, readWhole, readFraction, readPower, found, unsigned]

/-! ## Integers -/

/-- An integer of a document is read as itself. -/
theorem number_integerChars {n : Int}
    (range : -0x8000000000000000 ≤ n ∧ n < 0x10000000000000000) (ends : EndsNumber rest) :
    number (integerChars n ++ rest) = .ok (.integer n, rest) := by
  have written : Numeral.IsWritten ⟨decide (n < 0), Nat.toDigits 10 n.natAbs, none, none⟩ :=
    ⟨Text.isCanonical_toDigits _, by simp, by simp⟩
  have spelled : integerChars n =
      Numeral.chars ⟨decide (n < 0), Nat.toDigits 10 n.natAbs, none, none⟩ := by
    simp [integerChars, Numeral.chars, Numeral.fractionChars, Numeral.powerChars]
  rw [spelled, number_numeral written ends]
  simp only [numberOf, Option.map_none, Nat.ofDigitChars_ten_toDigits]
  by_cases negative : n < 0
  · have size : 0 < n.natAbs ∧ n.natAbs ≤ 0x8000000000000000 := by omega
    have back : -(n.natAbs : Int) = n := by omega
    rw [if_neg (by simp [negative]), if_pos (by simpa [negative] using size), back]
    rfl
  · have size : n.natAbs < 0x10000000000000000 := by omega
    have back : (n.natAbs : Int) = n := by omega
    rw [if_pos (by simpa [negative] using size), back]
    rfl

/-! ## Layouts of a decimal -/

/-- An unsigned numeral that reads as a decimal does, and is not an integer. It has at most the
zeros of a whole number behind its digits, and then one more behind the point. -/
structure Numeral.Spells (n : Numeral) (d : Decimal) : Prop where
  unsigned : n.negative = false
  written : n.IsWritten
  real : ¬ (n.fraction.isNone = true ∧ n.power.isNone = true)
  reads : ∀ m, Binary64.readsAs m n.decimal.exponent n.decimal.digits =
    Binary64.readsAs m d.exponent d.digits
  digits : n.decimal.digits ≤ d.digits * tenTo (d.exponent + 1).toNat
  exponent : n.decimal.exponent.natAbs ≤ max 1 d.exponent.natAbs

/-- A numeral of the very decimal. -/
theorem Numeral.spells_of_decimal {n : Numeral} {d : Decimal} (unsigned : n.negative = false)
    (written : n.IsWritten) (real : ¬ (n.fraction.isNone = true ∧ n.power.isNone = true))
    (same : n.decimal = d) : n.Spells d where
  unsigned
  written
  real
  reads := by simp [same]
  digits := same ▸ Nat.le_mul_of_pos_right _ (Binary64.tenTo_pos _)
  exponent := same ▸ Nat.le_max_right ..

theorem isCanonical_append {ds more : List Char} (hd : ds.all Char.isDigit = true)
    (nonempty : ds ≠ []) (lead : ds.head? ≠ some '0') (hm : more.all Char.isDigit = true) :
    Text.IsCanonical (ds ++ more) := by
  obtain ⟨c, ds, rfl⟩ := List.exists_cons_of_ne_nil nonempty
  exact ⟨by simp, by simp_all, .inr (by simpa using lead)⟩

theorem all_isDigit_toDigits (n : Nat) : (Nat.toDigits 10 n).all Char.isDigit = true :=
  (Text.isCanonical_toDigits n).2.1

theorem all_isDigit_replicate (n : Nat) : (List.replicate n '0').all Char.isDigit = true := by
  simp

/-- Zeros stand behind the digits, and one behind the point. -/
theorem positional_of_nonneg {d : Decimal} (nonneg : 0 ≤ d.exponent)
    (lead : 0 < d.digits ∨ d.exponent = 0) :
    ∃ n : Numeral, n.chars = NumberStyle.document.positional d ∧ n.Spells d := by
  obtain ⟨digits, exponent⟩ := d
  obtain ⟨e, rfl⟩ := Int.eq_ofNat_of_zero_le nonneg
  refine ⟨⟨false, Nat.toDigits 10 digits ++ List.replicate e '0', some ['0'], none⟩, ?_, ?_⟩
  · simp [Numeral.chars, Numeral.fractionChars, Numeral.powerChars, NumberStyle.positional,
      NumberStyle.document]
  · have exponent : Numeral.decimal ⟨false, Nat.toDigits 10 digits ++ List.replicate e '0',
        some ['0'], none⟩ = ⟨digits * tenTo (e + 1), -1⟩ := by
      simp [Numeral.decimal, Nat.ofDigitChars_append, Nat.ofDigitChars_cons, tenTo]
      ring
    refine ⟨rfl, ⟨?_, by simp, by simp⟩, by simp, fun m => ?_, ?_, ?_⟩
    · rcases lead with positive | zero
      · exact isCanonical_append (all_isDigit_toDigits _) Nat.toDigits_ne_nil
          (Text.head?_toDigits positive) (all_isDigit_replicate _)
      · obtain rfl : e = 0 := by simpa using zero
        simpa using Text.isCanonical_toDigits digits
    · rw [exponent, ← Binary64.readsAs_shifts m digits e (e + 1)]
      simp [tenTo, Nat.mul_comm]
    · rw [exponent]
      exact Nat.le_refl _
    · rw [exponent]
      exact Nat.le_max_left ..

/-- The point stands among the digits, or zeros stand before them. -/
theorem positional_of_neg {d : Decimal} (neg : d.exponent < 0) (positive : 0 < d.digits) :
    ∃ n : Numeral, n.chars = NumberStyle.document.positional d ∧ n.Spells d := by
  obtain ⟨digits, exponent⟩ := d
  obtain ⟨k, rfl⟩ : ∃ k : Nat, exponent = -((k + 1 : Nat) : Int) :=
    ⟨(-exponent).toNat - 1, by simp at neg; omega⟩
  have places : (-(-((k + 1 : Nat) : Int))).toNat = k + 1 := by omega
  generalize hp : List.replicate (k + 1 + 1 - (Nat.toDigits 10 digits).length) '0' ++
    Nat.toDigits 10 digits = padded
  have enough : k + 1 < padded.length := by
    rw [← hp]
    simp
    omega
  have allDigits : padded.all Char.isDigit = true := by
    rw [← hp, List.all_append, all_isDigit_replicate, all_isDigit_toDigits]
    rfl
  have value : Nat.ofDigitChars 10 padded 0 = digits := by
    rw [← hp]
    simp [Nat.ofDigitChars_append]
  have split := List.take_append_drop (padded.length - (k + 1)) padded
  refine ⟨⟨false, padded.take (padded.length - (k + 1)),
    some (padded.drop (padded.length - (k + 1))), none⟩, ?_,
    Numeral.spells_of_decimal rfl ⟨?_, ?_, by simp⟩ (by simp) ?_⟩
  · simp only [NumberStyle.positional, places]
    rw [if_neg (by omega), hp]
    simp [Numeral.chars, Numeral.fractionChars, Numeral.powerChars]
  · refine ⟨?_, ?_, ?_⟩
    · intro empty
      have := congrArg List.length empty
      simp at this
      omega
    · rw [List.all_eq_true] at allDigits ⊢
      exact fun c hc => allDigits c (List.mem_of_mem_take hc)
    · -- a zero leads only where zeros were put before the digits, and then it stands alone
      by_cases short : (Nat.toDigits 10 digits).length ≤ k + 1
      · left
        have := congrArg List.length hp
        simp at this ⊢
        omega
      · right
        have unpadded : padded = Nat.toDigits 10 digits := by
          rw [← hp, show k + 1 + 1 - (Nat.toDigits 10 digits).length = 0 by omega]
          rfl
        rw [List.head?_take, if_neg (by omega), unpadded]
        exact Text.head?_toDigits positive
  · rintro ds ⟨rfl⟩
    constructor
    · intro empty
      have := congrArg List.length empty
      simp at this
      omega
    · rw [List.all_eq_true] at allDigits ⊢
      exact fun c hc => allDigits c (List.mem_of_mem_drop hc)
  · have behind : padded.length - (padded.length - (k + 1)) = k + 1 := by omega
    simp [Numeral.decimal, split, value, behind]

/-- One digit stands before the point. -/
theorem scientific_spells {d : Decimal} {exponent : Int}
    (he : exponent = d.exponent + (Nat.toDigits 10 d.digits).length - 1) :
    ∃ n : Numeral, n.chars = NumberStyle.scientific d exponent ∧ n.Spells d := by
  obtain ⟨c, more, hd⟩ := List.exists_cons_of_ne_nil (Nat.toDigits_ne_nil (n := d.digits) (b := 10))
  have allDigits := all_isDigit_toDigits d.digits
  have value : Nat.ofDigitChars 10 (c :: more) 0 = d.digits := by
    rw [← hd, Nat.ofDigitChars_ten_toDigits]
  rw [hd, List.all_cons, Bool.and_eq_true] at allDigits
  have power : Numeral.exponent (decide (exponent < 0), Nat.toDigits 10 exponent.natAbs) =
      exponent := by
    simp only [Numeral.exponent, Nat.ofDigitChars_ten_toDigits, decide_eq_true_eq]
    split <;> omega
  have fraction : (if more = [] then none else some more).getD [] = more := by
    split <;> simp_all
  refine ⟨⟨false, [c], if more = [] then none else some more,
    some (decide (exponent < 0), Nat.toDigits 10 exponent.natAbs)⟩, ?_,
    Numeral.spells_of_decimal rfl ⟨⟨by simp, by simp [allDigits], .inl rfl⟩, ?_, ?_⟩ (by simp) ?_⟩
  · rw [NumberStyle.scientific, hd]
    cases more with
    | nil => simp [Numeral.chars, Numeral.fractionChars, Numeral.powerChars]
    | cons c' more => simp [Numeral.chars, Numeral.fractionChars, Numeral.powerChars]
  · intro ds hds
    by_cases alone : more = []
    · simp [alone] at hds
    · obtain rfl : more = ds := by simpa [alone] using hds
      exact ⟨alone, allDigits.2⟩
  · rintro p ⟨rfl⟩
    exact ⟨Nat.toDigits_ne_nil, all_isDigit_toDigits _⟩
  · have last : exponent - more.length = d.exponent := by
      rw [he, hd, List.length_cons]
      omega
    simp only [Numeral.decimal, fraction, Option.map_some, Option.getD_some, power, last,
      List.singleton_append, value]

/-- A decimal is written as a numeral. -/
theorem write_spells (d : Decimal) :
    ∃ n : Numeral, n.chars = NumberStyle.document.write d ∧ n.Spells d := by
  unfold NumberStyle.write
  simp only []
  split
  · next zero =>
    obtain ⟨n, chars, spells⟩ := positional_of_nonneg (d := ⟨0, 0⟩) (Int.le_refl _) (.inr rfl)
    have nothing : n.decimal.digits = 0 := by simpa using spells.digits
    refine ⟨n, chars, spells.unsigned, spells.written, spells.real, fun m => ?_, ?_, ?_⟩
    · rw [spells.reads, zero]
      exact Binary64.readsAs_zero ..
    · rw [nothing]
      exact Nat.zero_le _
    · exact Nat.le_trans spells.exponent (Nat.le_max_left ..)
  · next nonzero =>
    have positive := Nat.pos_of_ne_zero nonzero
    split
    · by_cases nonneg : 0 ≤ d.exponent
      · exact positional_of_nonneg nonneg (.inl positive)
      · exact positional_of_neg (Int.not_le.1 nonneg) positive
    · exact scientific_spells rfl

/-! ## Digits gathered -/

/-- The decimal of a numeral as it is gathered, its sign aside. -/
def Numeral.gathered (n : Numeral) : Decimal :=
  decimalOf n.whole (n.fraction.getD []) ((n.power.map Numeral.exponent).getD 0)

/-- Digits are gathered until the next one does not fit 64 bits, and then they fill 61. -/
theorem gather_spec {n : Nat} (fits : n < 0x10000000000000000) (ds : List Char) :
    (gather n ds).1 < 0x10000000000000000 ∧
      ((gather n ds).2 = [] ∧ (gather n ds).1 = Nat.ofDigitChars 10 ds n ∨
        (gather n ds).2 ≠ [] ∧ 0x1000000000000000 ≤ (gather n ds).1 ∧
          0x10000000000000000 ≤ Nat.ofDigitChars 10 ds n) := by
  induction ds generalizing n with
  | nil => exact ⟨fits, .inl ⟨rfl, rfl⟩⟩
  | cons c cs ih =>
    have small : c.toNat < 2 ^ 32 := c.val.toNat_lt
    have grows := Text.le_ofDigitChars (10 * n + (c.toNat - '0'.toNat)) cs
    rw [Nat.ofDigitChars_cons]
    simp only [gather]
    split
    · next inside => exact ih inside
    · next outside => exact ⟨fits, .inr ⟨by simp, by simp only []; omega, by omega⟩⟩

/-- Digits whose number fits 64 bits are gathered. -/
theorem gather_eq {n : Nat} (fits : Nat.ofDigitChars 10 ds n < 0x10000000000000000) :
    gather n ds = (Nat.ofDigitChars 10 ds n, []) := by
  have small := Text.le_ofDigitChars n ds
  obtain ⟨-, ⟨nothing, all⟩ | ⟨-, -, large⟩⟩ := gather_spec (n := n) (by omega) ds
  · exact Prod.ext all nothing
  · omega

/-- The decimal of digits whose number fits 64 bits is that number. -/
theorem gathered_eq {n : Numeral} (fits : n.decimal.digits < 0x10000000000000000) :
    n.gathered = n.decimal := by
  have split : Nat.ofDigitChars 10 (n.fraction.getD []) (Nat.ofDigitChars 10 n.whole 0) =
      n.decimal.digits := (Nat.ofDigitChars_append ..).symm
  have first := Text.le_ofDigitChars (Nat.ofDigitChars 10 n.whole 0) (n.fraction.getD [])
  have whole : gather 0 n.whole = (Nat.ofDigitChars 10 n.whole 0, []) := gather_eq (by omega)
  simp only [Numeral.gathered, decimalOf, whole]
  rw [gather_eq (by omega), split]
  simp [Numeral.decimal]

/-! ## Floating numbers -/

/-- The floating number as which a written one is read. -/
def again? (x : FiniteBinary64) : Option FiniteBinary64 :=
  match number (realChars x) with
  | .ok (.real y, _) => some y
  | _ => none

theorem ofDecimal_decimal {n : Numeral} {x : Binary64} (finite : x.isFinite = true)
    (spells : n.Spells (Binary64.shortest .toEven x.magnitude)) :
    Binary64.ofDecimal x.negative n.decimal = x := by
  have bounded : x.magnitude < Binary64.infiniteMagnitude := of_decide_eq_true finite
  have reads := spells.reads x.magnitude
  rw [Binary64.readsAs_shortest] at reads
  rw [Binary64.ofDecimal_of_readsAs bounded reads]
  have size : min x.magnitude 0x7FF0000000000000 = x.magnitude :=
    Nat.min_eq_left (Nat.le_of_lt bounded)
  simp only [Binary64.ofMagnitude, size]

theorem realChars_eq (x : FiniteBinary64) :
    realChars x = (if x.1.negative then ['-'] else []) ++
      NumberStyle.document.write (Binary64.shortest .toEven x.1.magnitude) := by
  obtain ⟨x, finite⟩ := x
  have bounded : x.magnitude < Binary64.infiniteMagnitude := of_decide_eq_true finite
  have number : x.isNaN = false := decide_eq_false (by omega)
  have limited : x.isInfinite = false := decide_eq_false (by omega)
  simp [realChars, NumberStyle.text, number, limited]
  rfl

/-- A number with a fraction or a power of ten is no integer. -/
theorem numberOf_of_real {n : Numeral} (h : ¬ (n.fraction.isNone = true ∧ n.power.isNone = true))
    (negative : Bool) :
    numberOf negative n.whole n.fraction (n.power.map Numeral.exponent) =
      (finite? (Binary64.ofScaled negative n.gathered)).map .real := by
  simp only [numberOf, Option.isNone_map]
  rw [if_neg fun both => h ⟨both.1, both.2.1⟩, if_neg fun both => h ⟨both.1, both.2.1⟩]
  rfl

/-- A floating number is written as its sign and the numeral of its shortest decimal. -/
theorem realChars_spells (x : FiniteBinary64) :
    ∃ n : Numeral, n.Spells (Binary64.shortest .toEven x.1.magnitude) ∧
      Numeral.IsWritten { n with negative := x.1.negative } ∧
      realChars x = Numeral.chars { n with negative := x.1.negative } := by
  obtain ⟨n, chars, spells⟩ := write_spells (Binary64.shortest .toEven x.1.magnitude)
  refine ⟨n, spells, ⟨spells.written.whole, spells.written.fraction, spells.written.power⟩, ?_⟩
  rw [realChars_eq, ← chars]
  simp [Numeral.chars, spells.unsigned]

/-- What a numeral begins with. -/
theorem Numeral.IsWritten.opens {n : Numeral} (h : n.IsWritten) :
    ∃ c more, n.chars = c :: more ∧ (c = '-' ∨ c.isDigit = true) := by
  obtain ⟨some, digits, -⟩ := h.whole
  obtain ⟨c, more, whole⟩ := List.exists_cons_of_ne_nil some
  rw [whole, List.all_cons, Bool.and_eq_true] at digits
  cases negative : n.negative with
  | false => exact ⟨c, _, by simp [Numeral.chars, negative, whole]; rfl, .inr digits.1⟩
  | true => exact ⟨'-', _, by simp [Numeral.chars, negative]; rfl, .inl rfl⟩

/-- What a floating number is written as is read as the number of its decimal. -/
theorem number_real (x : FiniteBinary64) :
    ∃ n : Numeral, n.Spells (Binary64.shortest .toEven x.1.magnitude) ∧
      ∀ rest, EndsNumber rest → number (realChars x ++ rest) =
        readOf ((finite? (Binary64.ofScaled x.1.negative n.gathered)).map .real) rest := by
  obtain ⟨n, spells, written, chars⟩ := realChars_spells x
  refine ⟨n, spells, fun rest ends => ?_⟩
  rw [chars, number_numeral written ends]
  exact congrArg (readOf · rest) (numberOf_of_real spells.real x.1.negative)

theorem again?_of_number {x : FiniteBinary64} {found : Option FiniteBinary64}
    (h : ∀ rest, EndsNumber rest → number (realChars x ++ rest) = readOf (found.map .real) rest) :
    again? x = found := by
  have alone := h [] (by simp [EndsNumber])
  rw [List.append_nil] at alone
  rw [again?, alone]
  cases found <;> rfl

/-- A floating number is read as the same number wherever it stands. -/
theorem number_realChars (x : FiniteBinary64) (ends : EndsNumber rest) :
    number (realChars x ++ rest) = readOf ((again? x).map .real) rest := by
  obtain ⟨n, -, reads⟩ := number_real x
  rw [reads rest ends, again?_of_number reads]

/-- A decimal whose digits, written out to the first place behind the point, take up 53 bits, and
whose power of ten is at most the twenty-second. -/
structure IsShort (d : Decimal) : Prop where
  digits : d.digits * tenTo (d.exponent + 1).toNat ≤ 2 * Binary64.binade
  power : d.exponent.natAbs ≤ 22

/-- A number is read as itself if its shortest decimal is short. -/
theorem again?_eq_self {x : FiniteBinary64}
    (short : IsShort (Binary64.shortest .toEven x.1.magnitude)) : again? x = some x := by
  obtain ⟨n, spells, reads⟩ := number_real x
  have read := ofDecimal_decimal x.2 spells
  have digits : n.decimal.digits ≤ 2 * Binary64.binade := Nat.le_trans spells.digits short.digits
  have power : n.decimal.exponent.natAbs ≤ 22 :=
    Nat.le_trans spells.exponent (Nat.max_le.2 ⟨by decide, short.power⟩)
  have gathered : n.gathered = n.decimal :=
    gathered_eq (Nat.lt_of_le_of_lt digits (by decide))
  rw [again?_of_number reads, gathered, Binary64.ofScaled_eq_ofDecimal digits power, read,
    finite?_of_isFinite x.2]

end Json.Reader

end TableMotion
