import TableMotion.Text.Digits

/-!
# Paths into a tree

A path lists the keys from the root down to a node. A key that is the canonical decimal form of a
64-bit number also names a place in a list.
-/

namespace TableMotion

/-- The keys from the root of a tree to one of its nodes. -/
abbrev Path := List String

namespace Path

/-- The path to the whole tree. -/
def root : Path := []

/-- The path of the node under `key`. -/
def child (p : Path) (key : String) : Path := p ++ [key]

/-- The path of the node that holds this one, if there is one. -/
def parent? (p : Path) : Option Path := if p = [] then none else some p.dropLast

/-- Whether `p` is `stem` or lies under it. -/
def covers (stem p : Path) : Bool := stem.isPrefixOf p

/-- Whether `p` lies above `q`. -/
def isAbove (p q : Path) : Bool := p.length < q.length && p.covers q

/-- The rest of `p` below `stem`, if `stem` covers it. -/
def below? (p stem : Path) : Option Path :=
  if stem.covers p then some (p.drop stem.length) else none

/-- The paths above `p`, the nearest first. -/
def ancestors (p : Path) : List Path := (List.range p.length).reverse.map p.take

/-- The list index that a key names: decimal digits without a leading zero, below `2 ^ 64`. -/
def index? (key : String) : Option Nat :=
  let value := Nat.ofDigitChars 10 key.toList 0
  if Text.IsCanonical key.toList ∧ value < 0x10000000000000000 then some value else none

/-- The key that names a list index. -/
def indexKey (i : Nat) : String := Nat.repr i

/-! ## What the operations say of the keys -/

theorem covers_iff {stem p : Path} : stem.covers p = true ↔ ∃ rest, p = stem ++ rest := by
  simp only [covers, List.isPrefixOf_iff_prefix, List.IsPrefix]
  exact ⟨fun ⟨rest, h⟩ => ⟨rest, h.symm⟩, fun ⟨rest, h⟩ => ⟨rest, h.symm⟩⟩

theorem isAbove_iff {p q : Path} : p.isAbove q = true ↔ ∃ key rest, q = p ++ key :: rest := by
  simp only [isAbove, Bool.and_eq_true, decide_eq_true_eq, covers_iff]
  constructor
  · rintro ⟨shorter, _ | ⟨key, rest⟩, rfl⟩
    · simp at shorter
    · exact ⟨key, rest, rfl⟩
  · rintro ⟨key, rest, rfl⟩
    exact ⟨by simp, key :: rest, rfl⟩

theorem covers_iff_eq_or_isAbove {p q : Path} :
    p.covers q = true ↔ p = q ∨ p.isAbove q = true := by
  rw [covers_iff, isAbove_iff]
  constructor
  · rintro ⟨_ | ⟨key, rest⟩, rfl⟩
    · exact Or.inl (List.append_nil p).symm
    · exact Or.inr ⟨key, rest, rfl⟩
  · rintro (rfl | ⟨key, rest, rfl⟩)
    · exact ⟨[], (List.append_nil p).symm⟩
    · exact ⟨key :: rest, rfl⟩

theorem covers_self (p : Path) : p.covers p = true := covers_iff_eq_or_isAbove.2 (Or.inl rfl)

theorem covers_append (p q : Path) : p.covers (p ++ q) = true := covers_iff.2 ⟨q, rfl⟩

theorem covers_of_isAbove {p q : Path} (above : p.isAbove q = true) : p.covers q = true :=
  covers_iff_eq_or_isAbove.2 (Or.inr above)

theorem below?_eq_some_iff {p stem rest : Path} :
    p.below? stem = some rest ↔ p = stem ++ rest := by
  unfold below?
  split
  · rename_i covered
    obtain ⟨more, rfl⟩ := covers_iff.1 covered
    simp
  · rename_i uncovered
    simp only [reduceCtorEq, false_iff]
    exact fun split => uncovered (covers_iff.2 ⟨rest, split⟩)

/-! ## Keys and indices -/

theorem index?_indexKey {i : Nat} (h : i < 0x10000000000000000) : index? (indexKey i) = some i := by
  have read : Nat.ofDigitChars 10 (indexKey i).toList 0 = i := by
    simp [indexKey, Nat.ofDigitChars_toDigits]
  have canonical : Text.IsCanonical (indexKey i).toList := by
    simpa [indexKey] using Text.isCanonical_toDigits i
  simp only [index?, read]
  rw [if_pos ⟨canonical, h⟩]

/-- Every index has one key. -/
theorem eq_indexKey_of_index? {key : String} {i : Nat} (h : index? key = some i) :
    key = indexKey i ∧ i < 0x10000000000000000 := by
  simp only [index?] at h
  split at h
  · rename_i named
    obtain rfl := Option.some.inj h
    refine ⟨?_, named.2⟩
    rw [indexKey, Nat.repr_eq_ofList_toDigits, Text.toDigits_ofDigitChars named.1,
      String.ofList_toList]
  · simp at h

theorem index?_eq_some_iff {key : String} {i : Nat} :
    index? key = some i ↔ key = indexKey i ∧ i < 0x10000000000000000 :=
  ⟨eq_indexKey_of_index?, fun ⟨named, small⟩ => named ▸ index?_indexKey small⟩

end Path

end TableMotion
