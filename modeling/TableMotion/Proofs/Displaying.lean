import Mathlib.Data.List.TakeWhile
import TableMotion.Amount.Json
import TableMotion.Proofs.Documents
import TableMotion.Proofs.Spelling

/-!
# Amounts written and read back

The text of an amount spells it exactly and canonically, so that it is read back as the same amount,
alone or as a string of a document (`ofText_text`, `ofJsonText_of_text`). Different amounts have
different texts.
-/

namespace TableMotion

namespace Amount

/-! ## Canonical spellings -/

namespace Spelling

/-- No plus sign and no padding: no zero leads other digits before the point, digits stand behind a
point, at most six, and the last is no zero. -/
structure IsCanonical (d : Spelling) : Prop where
  unsigned : d.sign ≠ .plus
  whole : Text.IsCanonical d.whole
  fraction : ∀ ds ∈ d.fraction, ds ≠ [] ∧ ds.all Char.isDigit = true ∧ ds.length ≤ 6 ∧
    ds.getLast? ≠ some '0'

/-- The parts of a natural number with a sign and a fraction. -/
def natural (negative : Bool) (n : Nat) (fraction : Option (List Char)) : Spelling :=
  ⟨if negative then .minus else .absent, Nat.toDigits 10 n, fraction⟩

variable (negative : Bool) (n : Nat) (fraction : Option (List Char))

theorem chars_natural :
    (natural negative n fraction).chars =
      (if negative then ['-'] else []) ++ (Nat.toDigits 10 n ++ pointed fraction) := by
  cases negative <;> rfl

theorem unsigned_natural : (natural negative n fraction).sign ≠ .plus := by
  cases negative <;> simp [natural]

/-- The number without its sign is the natural number and the fraction. -/
theorem size_natural :
    (natural negative n fraction).size =
      n + Nat.ofDigitChars 10 (fraction.getD []) 0 / 10 ^ (fraction.getD []).length := by
  simp [natural, size, behind]

variable {n fraction}

/-- A number whose size is that of an integer, in some unit, is that integer if it has its sign. -/
theorem value_natural_mul {x : ℤ} {unit : ℚ}
    (h : (natural (x < 0) n fraction).size * unit = x.natAbs) :
    (natural (x < 0) n fraction).value * unit = x := by
  have signed : (if x < 0 then -(x.natAbs : ℚ) else x.natAbs) = x := by
    split
    · next negative =>
      have same : -(x.natAbs : ℤ) = x := by omega
      rw [← Int.cast_natCast, ← Int.cast_neg, same]
    · next nonneg =>
      have same : (x.natAbs : ℤ) = x := by omega
      rw [← Int.cast_natCast, same]
  have minus : (natural (x < 0) n fraction).sign = .minus ↔ x < 0 := by
    by_cases negative : x < 0 <;> simp [natural, negative]
  rw [value, ite_mul, neg_mul, h]
  simp only [minus]
  exact signed

variable {negative}

theorem isDecimal_natural (h : (fraction.getD []).all Char.isDigit = true) :
    (natural negative n fraction).IsDecimal :=
  ⟨(Text.isCanonical_toDigits n).2.1, h, fun none => Nat.toDigits_ne_nil none.1⟩

end Spelling

/-! ## The fraction of an amount -/

/-- What is cut off is zeros. -/
theorem dropTrailingZeros_append (cs : List Char) :
    ∃ k, dropTrailingZeros cs ++ List.replicate k '0' = cs := by
  have split := congrArg List.reverse
    (List.takeWhile_append_dropWhile (p := (· = '0')) (l := cs.reverse))
  rw [List.reverse_append, List.reverse_reverse] at split
  have zeros : (cs.reverse.takeWhile (· = '0')).reverse =
      List.replicate (cs.reverse.takeWhile (· = '0')).length '0' := by
    rw [List.eq_replicate_iff]
    refine ⟨List.length_reverse, fun c member => ?_⟩
    simpa using List.mem_takeWhile_imp (List.mem_reverse.1 member)
  refine ⟨(cs.reverse.takeWhile (· = '0')).length, ?_⟩
  rw [dropTrailingZeros, ← zeros]
  exact split

theorem getLast?_dropTrailingZeros (cs : List Char) :
    (dropTrailingZeros cs).getLast? ≠ some '0' := by
  have first := List.head?_dropWhile_not (· = '0') cs.reverse
  rw [dropTrailingZeros, List.getLast?_reverse]
  intro zero
  rw [zero] at first
  simp at first

/-- A number of millionths in six digits, zeros in front. -/
def sixDigits (n : Nat) : List Char :=
  List.replicate (6 - (Nat.toDigits 10 n).length) '0' ++ Nat.toDigits 10 n

theorem length_sixDigits {n : Nat} (small : n < 1000000) : (sixDigits n).length = 6 := by
  have := (Nat.length_toDigits_le_iff (by decide) (by decide : 0 < 6)).2
    (show n < 10 ^ 6 from small)
  simp [sixDigits]
  omega

theorem ofDigitChars_sixDigits (n : Nat) : Nat.ofDigitChars 10 (sixDigits n) 0 = n := by
  simp [sixDigits, Nat.ofDigitChars_append]

theorem all_isDigit_sixDigits (n : Nat) : (sixDigits n).all Char.isDigit = true := by
  simp [sixDigits, (Text.isCanonical_toDigits n).2.1]

/-- The digits behind the point stand for the millionths that make less than one. -/
theorem fraction_spec {n : Nat} (positive : 0 < n) (small : n < 1000000) {ds : List Char}
    (spelled : dropTrailingZeros (sixDigits n) = ds) :
    (ds ≠ [] ∧ ds.all Char.isDigit = true ∧ ds.length ≤ 6 ∧ ds.getLast? ≠ some '0') ∧
      Nat.ofDigitChars 10 ds 0 * 1000000 = n * 10 ^ ds.length := by
  obtain ⟨k, cut⟩ := dropTrailingZeros_append (sixDigits n)
  have last := getLast?_dropTrailingZeros (sixDigits n)
  rw [spelled] at cut last
  have places : ds.length + k = 6 := by
    have := congrArg List.length cut
    rwa [List.length_append, List.length_replicate, length_sixDigits small] at this
  have value : 10 ^ k * Nat.ofDigitChars 10 ds 0 = n := by
    have := congrArg (Nat.ofDigitChars 10 · 0) cut
    simpa [Nat.ofDigitChars_append, ofDigitChars_sixDigits] using this
  have digits : ds.all Char.isDigit = true := by
    have := all_isDigit_sixDigits n
    rw [← cut, List.all_append, Bool.and_eq_true] at this
    exact this.1
  refine ⟨⟨?_, digits, by omega, last⟩, ?_⟩
  · rintro rfl
    simp at value
    omega
  · have scale : 10 ^ k * 10 ^ ds.length = 1000000 := by
      rw [← Nat.pow_add, Nat.add_comm, places]
    rw [← value, ← scale]
    ring

/-! ## The text of an amount -/

/-- The parts in which an amount is written. -/
def spelling (a : Amount) : Spelling :=
  .natural (a.raw < 0) (a.raw.natAbs / 1000000)
    (if a.raw.natAbs % 1000000 = 0 then none
      else some (dropTrailingZeros (sixDigits (a.raw.natAbs % 1000000))))

variable (a : Amount)

theorem chars_spelling : a.spelling.chars = a.chars := by
  rw [spelling, Spelling.chars_natural, chars, ← List.append_assoc]
  simp only [decide_eq_true_eq]
  congr 1
  split <;> rfl

theorem isCanonical_spelling : a.spelling.IsCanonical := by
  refine ⟨Spelling.unsigned_natural _ _ _, Text.isCanonical_toDigits _, fun ds here => ?_⟩
  simp only [spelling, Spelling.natural] at here
  split at here
  · cases here
  · next positive =>
    cases here
    exact (fraction_spec (Nat.pos_of_ne_zero positive) (Nat.mod_lt _ (by decide)) rfl).1

theorem isDecimal_spelling : a.spelling.IsDecimal := by
  apply Spelling.isDecimal_natural
  split
  · rfl
  · next positive =>
    exact (fraction_spec (Nat.pos_of_ne_zero positive) (Nat.mod_lt _ (by decide)) rfl).1.2.1

/-- An amount is written to the last digit. -/
theorem size_spelling : a.spelling.size * 1000000 = a.raw.natAbs := by
  have split : (a.raw.natAbs / 1000000 : Nat) * (1000000 : ℚ) + (a.raw.natAbs % 1000000 : Nat) =
      a.raw.natAbs := by
    exact_mod_cast Nat.div_add_mod' a.raw.natAbs 1000000
  rw [spelling, Spelling.size_natural, add_mul, ← split]
  congr 1
  split
  · next none =>
    simp [none]
  · next positive =>
    obtain ⟨-, value⟩ := fraction_spec (Nat.pos_of_ne_zero positive) (Nat.mod_lt _ (by decide)) rfl
    generalize dropTrailingZeros (sixDigits (a.raw.natAbs % 1000000)) = ds at value
    have value : (Nat.ofDigitChars 10 ds 0 : ℚ) * 1000000 =
        (a.raw.natAbs % 1000000 : Nat) * 10 ^ ds.length := by
      exact_mod_cast value
    rw [Option.getD_some, div_mul_eq_mul_div, value, mul_div_cancel_right₀ _ (by positivity)]

theorem nearest_spelling : a.spelling.nearest = a.raw := by
  have exact : a.spelling.value * 1000000 = a.raw := Spelling.value_natural_mul a.size_spelling
  rw [Spelling.nearest, exact, halfAway_intCast]

theorem spells_text : Spells a.text a.spelling :=
  ⟨a.isDecimal_spelling, by rw [text, String.toList_ofList, chars_spelling]⟩

/-- An amount is read back from its text. -/
theorem ofText_text : ofText a.text = .ok a :=
  ofText_eq_ok_iff.2 ⟨a.spelling, a.spells_text, a.nearest_spelling⟩

end Amount

/-! ## Amounts in documents -/

/-- A whole text is read if nothing but blanks follows what is read. -/
theorem Json.readText_eq_ok_iff {α : Type} {reader : Json.Reader α} {text : String} {a : α} :
    Json.readText reader text = .ok a ↔
      ∃ rest, reader text.toList = .ok (a, rest) ∧ rest.all Json.Reader.isBlank = true := by
  rw [Json.readText]
  cases reader text.toList with
  | error e => simp
  | ok p =>
    obtain ⟨b, rest⟩ := p
    simp only [Json.Reader.except_bind, Json.Reader.except_bind_ok, Except.ok.injEq,
      Prod.mk.injEq]
    split
    · next blank => simp [blank]
    · next other => simp [other]

namespace Json.Reader

variable {cs rest : List Char} {s : String}

theorem bind_eq_ok_iff {α β : Type} {r : Reader α} {f : α → Reader β} {p : β × List Char} :
    (r >>= f) cs = .ok p ↔ ∃ a left, r cs = .ok (a, left) ∧ f a left = .ok p := by
  rw [bind_apply]
  cases r cs with
  | error e => simp
  | ok q =>
    obtain ⟨a, left⟩ := q
    simp

/-- What is read as a number is the number of its parts. -/
theorem numberOf_of_number {v : Json} (h : number cs = .ok (v, rest)) :
    ∃ negative whole fraction power, numberOf negative whole fraction power = some v := by
  unfold number at h
  obtain ⟨cs', _, -, h⟩ := bind_eq_ok_iff.1 h
  -- a minus sign is passed over first, and all else is the same
  split at h
  on_goal 1 => obtain ⟨_, _, -, h⟩ := bind_eq_ok_iff.1 h
  all_goals
    obtain ⟨whole, _, -, h⟩ := bind_eq_ok_iff.1 h
    obtain ⟨fraction, _, -, h⟩ := bind_eq_ok_iff.1 h
    obtain ⟨power, _, -, h⟩ := bind_eq_ok_iff.1 h
    generalize found : numberOf _ whole fraction power = result at h
    cases result with
    | none => cases h
    | some v' =>
      cases h
      exact ⟨_, whole, fraction, power, found⟩

/-- A number is no string. -/
theorem number_ne_text : number cs ≠ .ok (.text s, rest) := by
  intro read
  obtain ⟨negative, whole, fraction, power, found⟩ := numberOf_of_number read
  unfold numberOf at found
  simp only [] at found
  split at found
  · cases found
  · split at found
    · cases found
    · obtain ⟨x, -, real⟩ := Option.map_eq_some_iff.1 found
      cases real

/-- A value is read as a string only from a string. -/
theorem string_of_valueWith {inner : Option (Reader Json)}
    (h : valueWith inner cs = .ok (.text s, rest)) :
    ∃ more, cs.dropWhile isBlank = '"' :: more ∧ string ('"' :: more) = .ok (s, rest) := by
  unfold valueWith at h
  obtain ⟨first, left, peeked, read⟩ := bind_eq_ok_iff.1 h
  obtain ⟨opens, rfl⟩ : (cs.dropWhile isBlank).head? = first ∧ cs.dropWhile isBlank = left := by
    simpa using peeked
  split at read
  · cases read
  · obtain ⟨_, _, -, read⟩ := bind_eq_ok_iff.1 read
    cases read
  · obtain ⟨_, _, -, read⟩ := bind_eq_ok_iff.1 read
    cases read
  · obtain ⟨_, _, -, read⟩ := bind_eq_ok_iff.1 read
    cases read
  · obtain ⟨found, _, inside, read⟩ := bind_eq_ok_iff.1 read
    cases read
    obtain ⟨more, opened⟩ := List.head?_eq_some_iff.1 opens
    exact ⟨more, opened, opened ▸ inside⟩
  · split at read
    · cases read
    · obtain ⟨_, _, -, read⟩ := bind_eq_ok_iff.1 read
      cases read
  · split at read
    · cases read
    · obtain ⟨_, _, -, read⟩ := bind_eq_ok_iff.1 read
      cases read
  · split at read
    · exact absurd read number_ne_text
    · cases read

/-- Where a value is read as a string, so is a scalar. -/
theorem scalar_of_value {depth : Nat} (h : value depth cs = .ok (.text s, rest)) :
    scalar cs = .ok (.text s, rest) := by
  obtain ⟨more, opened, inside⟩ :
      ∃ more, cs.dropWhile isBlank = '"' :: more ∧ string ('"' :: more) = .ok (s, rest) := by
    cases depth <;> exact string_of_valueWith h
  have dark : isBlank '"' = false := by decide
  simp [scalar, valueWith, opened, dark, inside]

end Json.Reader

namespace Amount

/-- An amount is read from any document that holds its text. -/
theorem ofJsonText_of_text {document : String} {a : Amount}
    (h : Json.ofText document = .ok (.text a.text)) : ofJsonText document = .ok a := by
  obtain ⟨rest, read, blank⟩ := Json.readText_eq_ok_iff.1 h
  have found := Json.Reader.scalar_of_value read
  refine Json.readText_eq_ok_iff.2 ⟨rest, ?_, blank⟩
  simp [reader, Json.Reader.scalarOf, found, ofScalar, ofText_text]

/-- A string is read back from the document that holds it alone. -/
theorem ofText_compact_text (s : String) :
    Json.ofText (Json.compact (.text s)) = .ok (.text s) := by
  have ordered : (Json.text s).WellFormed := trivial
  have ends : Json.Reader.EndsNumber [] := nofun
  have spelled : (Json.compact (.text s)).toList = Json.wideChars 0 (.text s) ++ [] := by
    rw [Json.compact, String.toList_ofList, List.append_nil]
    rfl
  refine Json.readText_eq_ok_iff.2 ⟨[], ?_, rfl⟩
  rw [spelled, Json.Reader.value_wideChars ordered 0 ends, Json.reread?_of_scalar rfl]
  rfl

/-- Every amount is read back from its text, alone or as a string of a document. The text is
canonical, and it is the text of no other amount. -/
theorem text_reads_back (a : Amount) :
    ofText a.text = .ok a ∧ ofJsonText (Json.compact a.toJson) = .ok a ∧
      (∀ document, Json.ofText document = .ok (.text a.text) → ofJsonText document = .ok a) ∧
      (∃ d, Spells a.text d ∧ d.IsCanonical) ∧ ∀ b : Amount, a.text = b.text ↔ a = b := by
  refine ⟨ofText_text a, ofJsonText_of_text (ofText_compact_text a.text),
    fun _ => ofJsonText_of_text, ⟨a.spelling, spells_text a, isCanonical_spelling a⟩, fun b => ?_⟩
  constructor
  · intro same
    have read := ofText_text a
    rw [same, ofText_text b] at read
    injection read with read
    exact read.symm
  · exact congrArg text

theorem text_reads_back_least :
    Json.ofText (Json.compact (.text "-9223372036854.775808")) =
        .ok (.text "-9223372036854.775808") ∧
      ofJsonText (Json.compact (.text "-9223372036854.775808")) =
        .ok ⟨-0x8000000000000000, by decide⟩ := by
  have document := ofText_compact_text "-9223372036854.775808"
  have least : text ⟨-0x8000000000000000, by decide⟩ = "-9223372036854.775808" := by decide +kernel
  exact ⟨document, (text_reads_back _).2.2.1 _ (by rw [least, document])⟩

end Amount

end TableMotion
