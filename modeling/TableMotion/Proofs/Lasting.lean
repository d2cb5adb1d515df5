import TableMotion.Tree.Json
import TableMotion.Proofs.Quotients
import TableMotion.Proofs.Shapes

/-!
# Trees read again

A tree that is written as JSON and read again keeps its lists, maps and keys. Its scalars may
change: an amount that floating numbers do not hold becomes another one, and a text that reads like
an amount becomes that amount. So a tree is read as itself exactly if each of its nodes lasts
(`ofJson_reread_eq_iff`). Where floating numbers come through unchanged, amounts of less than
`2 ^ 51` millionths all do (`isHeld_of_natAbs_lt`).

A document may give a floating number back as another one, or refuse it. What it is read as is left
open here: `again` tells it, and `some` is the reading that changes nothing.
-/

namespace TableMotion

/-! ## Entries put into a dictionary -/

namespace Dictionary

variable {α : Type} {d entries : Dictionary α}

theorem find?_filter (kept : String → Bool) (d : Dictionary α) (key : String) :
    find? (d.filter fun e => kept e.1) key = if kept key then find? d key else none := by
  induction d with
  | nil => simp
  | cons e rest ih => grind [find?]

/-- Puts entries into a dictionary, one after another. -/
def insertAll (d entries : Dictionary α) : Dictionary α :=
  entries.foldl (fun d e => insert e.1 e.2 d) d

theorem Sorted.insertAll (h : Sorted d) (entries : Dictionary α) :
    Sorted (Dictionary.insertAll d entries) := by
  induction entries generalizing d with
  | nil => exact h
  | cons e rest ih => exact ih (h.insert e.1 e.2)

theorem find?_insertAll (h : Sorted entries) (key : String) :
    find? (insertAll d entries) key = (find? entries key).or (find? d key) := by
  induction entries generalizing d with
  | nil => rfl
  | cons e rest ih =>
    obtain ⟨above, ordered⟩ := sorted_cons.1 h
    rw [insertAll, List.foldl_cons, ← insertAll, ih ordered, find?_cons]
    by_cases same : e.1 = key
    · have absent : find? rest key = none := find?_eq_none_of_lt (same ▸ above)
      simp [same, absent]
    · rw [if_neg same, find?_insert_of_ne _ _ same]

theorem insertAll_nil (h : Sorted entries) : insertAll [] entries = entries := by
  apply Sorted.ext (sorted_nil.insertAll entries) h
  intro key
  rw [find?_insertAll h, find?_nil, Option.or_none]

theorem mapValues_insertAll {β : Type} (f : α → β) (d entries : Dictionary α) :
    mapValues f (insertAll d entries) = insertAll (mapValues f d) (mapValues f entries) := by
  induction entries generalizing d with
  | nil => rfl
  | cons e rest ih =>
    rw [insertAll, List.foldl_cons, ← insertAll, ih, ← insert_mapValues]
    rfl

/-- What holds of the old values and of the new ones holds of all of them. -/
theorem forall_insertAll (holds : α → Prop) (hd : ∀ e ∈ d, holds e.2)
    (he : ∀ e ∈ entries, holds e.2) : ∀ e ∈ insertAll d entries, holds e.2 := by
  induction entries generalizing d with
  | nil => exact hd
  | cons e rest ih =>
    refine ih (fun m member => ?_) fun m member => he m (List.mem_cons_of_mem _ member)
    rcases mem_insert member with rfl | old
    · exact he e List.mem_cons_self
    · exact hd m old

/-- What a filter drops leaves no trace of entries put over it. -/
theorem filter_insertAll {kept : String → Bool} (hd : Sorted d) (he : Sorted entries)
    (dropped : ∀ e ∈ d, kept e.1 = false) :
    (insertAll d entries).filter (fun e => kept e.1) = entries.filter fun e => kept e.1 := by
  apply Sorted.ext ((hd.insertAll entries).filter _) (he.filter _)
  intro key
  rw [find?_filter, find?_filter, find?_insertAll he]
  cases keeps : kept key with
  | false => rfl
  | true =>
    have absent : find? d key = none := by
      rw [Option.eq_none_iff_forall_not_mem]
      intro v found
      have := dropped _ (mem_of_find? found)
      simp [keeps] at this
    simp [absent]

end Dictionary

/-- An integer of a document is a finite number. -/
theorem Binary64.isFinite_ofInt {n : Int} (h : n.natAbs ≤ 0x10000000000000000) :
    (ofInt n).isFinite = true := by
  have le : roundUnits (n.natAbs * unitsPerOne) 1 ≤
      roundUnits (0x10000000000000000 * unitsPerOne) 1 :=
    roundUnits_mono (Nat.mul_le_mul_right _ h)
  have top : roundUnits (0x10000000000000000 * unitsPerOne) 1 < infiniteMagnitude := by
    decide +kernel
  apply decide_eq_true
  show min _ infiniteMagnitude < infiniteMagnitude
  omega

/-! ## JSON values -/

namespace Json

mutual

/-- Integers fit 64 bits, with a sign or without, and the keys of every object are in order. -/
def WellFormed : Json → Prop
  | .integer n => -0x8000000000000000 ≤ n ∧ n < 0x10000000000000000
  | .array items => WellFormedItems items
  | .object members => Dictionary.Sorted members ∧ WellFormedMembers members
  | .null | .bool _ | .real _ | .text _ => True

/-- Every item is well formed. -/
def WellFormedItems : List Json → Prop
  | [] => True
  | v :: rest => WellFormed v ∧ WellFormedItems rest

/-- Every member holds a well-formed value. -/
def WellFormedMembers : List (String × Json) → Prop
  | [] => True
  | (_, v) :: rest => WellFormed v ∧ WellFormedMembers rest

end

mutual

/-- How many arrays and objects are open at once in a value. -/
def depth : Json → Nat
  | .array items => depthOfItems items + 1
  | .object members => depthOfMembers members + 1
  | .null | .bool _ | .integer _ | .real _ | .text _ => 0

/-- The depth of the deepest item. -/
def depthOfItems : List Json → Nat
  | [] => 0
  | v :: rest => max (depth v) (depthOfItems rest)

/-- The depth of the deepest member. -/
def depthOfMembers : List (String × Json) → Nat
  | [] => 0
  | (_, v) :: rest => max (depth v) (depthOfMembers rest)

end

mutual

/-- The value with its floating numbers read again. Where one is refused stands `null`. -/
def reread (again : FiniteBinary64 → Option FiniteBinary64) : Json → Json
  | .real x => (again x).elim .null .real
  | .array items => .array (rereadItems again items)
  | .object members => .object (rereadMembers again members)
  | .null => .null
  | .bool b => .bool b
  | .integer n => .integer n
  | .text s => .text s

/-- The items with their floating numbers read again. -/
def rereadItems (again : FiniteBinary64 → Option FiniteBinary64) : List Json → List Json
  | [] => []
  | v :: rest => reread again v :: rereadItems again rest

/-- The members with the floating numbers of their values read again. -/
def rereadMembers (again : FiniteBinary64 → Option FiniteBinary64) :
    List (String × Json) → List (String × Json)
  | [] => []
  | (key, v) :: rest => (key, reread again v) :: rereadMembers again rest

end

mutual

/-- No floating number is refused. -/
def isReadable (again : FiniteBinary64 → Option FiniteBinary64) : Json → Bool
  | .real x => (again x).isSome
  | .array items => isReadableItems again items
  | .object members => isReadableMembers again members
  | .null | .bool _ | .integer _ | .text _ => true

/-- No floating number of an item is refused. -/
def isReadableItems (again : FiniteBinary64 → Option FiniteBinary64) : List Json → Bool
  | [] => true
  | v :: rest => isReadable again v && isReadableItems again rest

/-- No floating number of a value is refused. -/
def isReadableMembers (again : FiniteBinary64 → Option FiniteBinary64) :
    List (String × Json) → Bool
  | [] => true
  | (_, v) :: rest => isReadable again v && isReadableMembers again rest

end

/-- What a value is read as where arrays and objects may be open to a depth. -/
def reread? (again : FiniteBinary64 → Option FiniteBinary64) (d : Nat) (v : Json) : Option Json :=
  if v.depth ≤ d ∧ v.isReadable again = true then some (v.reread again) else none

theorem wellFormedItems_iff {items : List Json} :
    WellFormedItems items ↔ ∀ v ∈ items, v.WellFormed := by
  induction items with
  | nil => simp [WellFormedItems]
  | cons v rest ih => simp [WellFormedItems, ih]

theorem wellFormedMembers_iff {members : List (String × Json)} :
    WellFormedMembers members ↔ ∀ m ∈ members, m.2.WellFormed := by
  induction members with
  | nil => simp [WellFormedMembers]
  | cons m rest ih => simp [WellFormedMembers, ih]

theorem depth_le_depthOfMembers {members : List (String × Json)} {m : String × Json}
    (h : m ∈ members) : m.2.depth ≤ depthOfMembers members := by
  induction members with
  | nil => simp at h
  | cons first rest ih =>
    rw [depthOfMembers]
    rcases List.mem_cons.1 h with rfl | later
    · exact Nat.le_max_left ..
    · exact Nat.le_trans (ih later) (Nat.le_max_right ..)

@[simp] theorem depth_ofBinary64 (x : Binary64) : (ofBinary64 x).depth = 0 := by
  unfold ofBinary64
  split <;> rfl

section Reread

variable {again : FiniteBinary64 → Option FiniteBinary64}

theorem isReadableItems_iff {items : List Json} :
    isReadableItems again items = true ↔ ∀ v ∈ items, v.isReadable again = true := by
  induction items with
  | nil => simp [isReadableItems]
  | cons v rest ih => simp [isReadableItems, ih]

theorem isReadableMembers_iff {members : List (String × Json)} :
    isReadableMembers again members = true ↔ ∀ m ∈ members, m.2.isReadable again = true := by
  induction members with
  | nil => simp [isReadableMembers]
  | cons m rest ih => simp [isReadableMembers, ih]

@[simp] theorem rereadItems_eq_map (items : List Json) :
    rereadItems again items = items.map (reread again) := by
  induction items with
  | nil => rfl
  | cons v rest ih => rw [rereadItems, ih, List.map_cons]

theorem rereadMembers_eq_mapValues (members : List (String × Json)) :
    rereadMembers again members = Dictionary.mapValues (reread again) members := by
  induction members with
  | nil => rfl
  | cons m rest ih =>
    rw [rereadMembers, ih]
    rfl

theorem reread_ofBinary64 (x : Binary64) :
    (ofBinary64 x).reread again = ((finite? x).bind again).elim .null .real := by
  rw [ofBinary64, finite?]
  split <;> rfl

theorem reread?_of_scalar {v : Json} (scalar : v.depth = 0) (d : Nat) :
    v.reread? again d = if v.isReadable again = true then some (v.reread again) else none := by
  simp [reread?, scalar]

mutual

/-- What changes no floating number changes nothing. -/
theorem reread_some : (v : Json) → v.reread some = v
  | .null | .bool _ | .integer _ | .real _ | .text _ => rfl
  | .array items => by rw [reread, rereadItems_some items]
  | .object members => by rw [reread, rereadMembers_some members]

theorem rereadItems_some : (items : List Json) → rereadItems some items = items
  | [] => rfl
  | v :: rest => by rw [rereadItems, reread_some v, rereadItems_some rest]

theorem rereadMembers_some :
    (members : List (String × Json)) → rereadMembers some members = members
  | [] => rfl
  | (key, v) :: rest => by rw [rereadMembers, reread_some v, rereadMembers_some rest]

end

mutual

@[simp] theorem depth_reread : (v : Json) → (v.reread again).depth = v.depth
  | .null | .bool _ | .integer _ | .text _ => rfl
  | .real x => by
    rw [reread]
    cases again x <;> rfl
  | .array items => by rw [reread, depth, depth, depthOfItems_reread items]
  | .object members => by rw [reread, depth, depth, depthOfMembers_reread members]

theorem depthOfItems_reread :
    (items : List Json) → depthOfItems (rereadItems again items) = depthOfItems items
  | [] => rfl
  | v :: rest => by
    rw [rereadItems, depthOfItems, depthOfItems, depth_reread v, depthOfItems_reread rest]

theorem depthOfMembers_reread :
    (members : List (String × Json)) →
      depthOfMembers (rereadMembers again members) = depthOfMembers members
  | [] => rfl
  | (_, v) :: rest => by
    rw [rereadMembers, depthOfMembers, depthOfMembers, depth_reread v,
      depthOfMembers_reread rest]

end

end Reread

end Json

/-! ## Trees -/

namespace Tree

@[simp] theorem ofItems_eq_map (items : List Json) : ofItems items = items.map ofJson := by
  induction items with
  | nil => rfl
  | cons v rest ih => rw [ofItems, ih, List.map_cons]

@[simp] theorem ofMembers_eq_map (members : List (String × Json)) :
    ofMembers members = members.map fun m => (m.1, ofJson m.2) := by
  induction members with
  | nil => rfl
  | cons m rest ih => rw [ofMembers, ih, List.map_cons]

@[simp] theorem itemsToJson_eq_map (items : List Tree) : itemsToJson items = items.map toJson := by
  induction items with
  | nil => rfl
  | cons t rest ih => rw [itemsToJson, ih, List.map_cons]

@[simp] theorem fieldsToJson_eq_map (fields : List (String × Tree)) :
    fieldsToJson fields = fields.map fun f => (f.1, f.2.toJson) := by
  induction fields with
  | nil => rfl
  | cons f rest ih => rw [fieldsToJson, ih, List.map_cons]

open Binary64

/-- An amount that is read as itself: a whole one, or one that floating numbers hold when they are
read again. -/
def isHeld (again : FiniteBinary64 → Option FiniteBinary64) (a : Amount) : Bool :=
  a.isWhole || ((Json.finite? a.toBinary64).bind again).bind (Amount.ofBinary64? ·.1) = some a

/-- Two roundings, to the quotient by a million and back, leave less than `2 ^ 51` millionths off by
less than a half. -/
theorem nearest_of_quotient {r unit : Nat} (some : 0 < r) (small : r < 0x8000000000000)
    (large : binade * 1000000 ≤ unit) {q p : Nat}
    (hq : unitsOf (roundUnits (r * unit * unit) (1000000 * unit)) = q)
    (hp : unitsOf (roundUnits (q * 1000000 * unit) (1 * unit)) = p) :
    q ≤ 2 * binade * unit ∧ p ≤ 2 * binade * unit ∧ (2 * p + unit) / (2 * unit) = r := by
  have positive : 0 < unit := by
    simp only [binade] at large
    omega
  have least : 1 * unit ≤ r * unit := Nat.mul_le_mul_right _ some
  have most : r * unit ≤ 0x7FFFFFFFFFFFF * unit := Nat.mul_le_mul_right _ (by omega)
  have normal : binade * 1000000 ≤ r * unit := by omega
  have quotient := roundUnits_mul_error (by decide) positive normal
  rw [hq] at quotient
  have normal : binade * 1 ≤ q * 1000000 := by
    simp only [binade] at *
    omega
  have product := roundUnits_mul_error (by decide) positive normal
  rw [hp] at product
  simp only [binade] at *
  refine ⟨by omega, by omega, ?_⟩
  rw [Nat.div_eq_iff (by omega), Nat.mul_left_comm r 2 unit]
  generalize r * unit = exact at *
  omega

theorem signed_natAbs (n : Int) :
    (if decide (n < 0) = true then -(n.natAbs : Int) else n.natAbs) = n := by
  by_cases negative : n < 0
  · simp [negative, Int.ofNat_natAbs_of_nonpos (Int.le_of_lt negative)]
  · simp [negative, Int.natAbs_of_nonneg (Int.not_lt.1 negative)]

/-- An amount of less than `2 ^ 51` millionths is held by numbers that nothing changes. -/
theorem isHeld_of_natAbs_lt {a : Amount} (small : a.raw.natAbs < 0x8000000000000) :
    isHeld some a = true := by
  rw [isHeld, Bool.or_eq_true, decide_eq_true_iff]
  rcases Nat.eq_zero_or_pos a.raw.natAbs with zero | above
  · left
    simp [Amount.isWhole, Int.natAbs_eq_zero.1 zero]
  right
  have bounded : a.raw.natAbs ≤ 2 * binade := by
    simp only [binade]
    omega
  obtain ⟨finiteRaw, signRaw, unitsRaw⟩ := ofInt_spec bounded
  obtain ⟨finiteScale, signScale, unitsScale⟩ :=
    ofInt_spec (show Amount.scale.natAbs ≤ 2 * binade by decide)
  have nonzero : (ofInt Amount.scale).isZero = false := by decide +kernel
  have positive : decide (Amount.scale < 0) = false := rfl
  have million : Amount.scale.natAbs = 1000000 := rfl
  have large : binade * 1000000 ≤ unitsPerOne := by decide +kernel
  obtain ⟨boundQ, boundP, nearest⟩ := nearest_of_quotient above small large rfl rfl
  rw [positive] at signScale
  rw [million] at unitsScale
  have quotient := div_spec finiteRaw finiteScale nonzero
  rw [unitsRaw, unitsScale, signRaw, signScale, Bool.bne_false] at quotient
  generalize roundUnits (a.raw.natAbs * unitsPerOne * unitsPerOne) (1000000 * unitsPerOne) = m at *
  obtain ⟨sizeQ, finiteQ⟩ := ofMagnitude_of_lt
    (magnitude_lt_of_unitsOf_lt (Nat.lt_of_le_of_lt boundQ unitsOf_infinite)) (a.raw < 0)
  have signQ : (ofMagnitude (a.raw < 0) m).negative = decide (a.raw < 0) := rfl
  have product := mul_spec finiteQ finiteScale
  rw [sizeQ, unitsScale, signQ, signScale, Bool.bne_false, ← Nat.mul_assoc] at product
  rw [Nat.one_mul] at *
  generalize roundUnits (unitsOf m * 1000000 * unitsPerOne) unitsPerOne = n at *
  obtain ⟨sizeP, finiteP⟩ := ofMagnitude_of_lt
    (magnitude_lt_of_unitsOf_lt (Nat.lt_of_le_of_lt boundP unitsOf_infinite)) (a.raw < 0)
  have again : (ofMagnitude (a.raw < 0) n).nearestInt = a.raw := by
    rw [nearestInt, if_neg (by simp [isNaN_eq_false_of_isFinite finiteP]), sizeP, nearest]
    exact signed_natAbs a.raw
  rw [Amount.toBinary64, quotient, Json.finite?_of_isFinite finiteQ, Option.bind_some,
    Option.bind_some, Amount.ofBinary64?, product, if_pos ⟨finiteQ, finiteP⟩, again,
    Amount.ofRaw?, dif_pos a.inRange]

/-- A node that is read as itself, what is below it aside. -/
def lasts (again : FiniteBinary64 → Option FiniteBinary64) : Tree → Bool
  | .amount a => isHeld again a
  | .text s => ofString s = .text s
  | .null | .bool _ | .list _ | .map _ => true

theorem fits_of_mul_scale {n raw : Int} (h : n * 1000000 = raw)
    (range : -0x8000000000000000 ≤ raw ∧ raw < 0x8000000000000000) :
    -0x8000000000000000 ≤ n ∧ n < 0x8000000000000000 := by
  omega

/-- A whole amount fits the integers of a document, and is the amount of its whole part. -/
theorem whole_spec {a : Amount} (h : a.isWhole = true) :
    (-0x8000000000000000 ≤ a.whole ∧ a.whole < 0x8000000000000000) ∧
      Amount.ofInt? a.whole = some a := by
  have exact : a.raw % Amount.scale = 0 := of_decide_eq_true h
  have product : a.whole * Amount.scale = a.raw :=
    Int.tdiv_mul_cancel (Int.dvd_of_emod_eq_zero exact)
  refine ⟨fits_of_mul_scale product a.inRange, ?_⟩
  rw [Amount.ofInt?, product, Amount.ofRaw?, dif_pos a.inRange]

theorem ofReal_eq_amount_iff {x : FiniteBinary64} {a : Amount} :
    ofReal x = .amount a ↔ Amount.ofBinary64? x.1 = some a := by
  rw [ofReal]
  cases Amount.ofBinary64? x.1 <;> simp

section

variable {again : FiniteBinary64 → Option FiniteBinary64}

theorem ofJson_amountToJson_iff (a : Amount) :
    ofJson ((amountToJson a).reread again) = .amount a ↔ isHeld again a = true := by
  rw [amountToJson, isHeld]
  by_cases h : a.isWhole = true
  · obtain ⟨range, exact⟩ := whole_spec h
    have read : ofInteger a.whole = .amount a := by
      rw [ofInteger, if_pos range, exact]
      rfl
    simp [h, Json.reread, ofJson, read]
  · rw [if_neg h, Json.reread_ofBinary64]
    cases (Json.finite? a.toBinary64).bind again with
    | none => simp [h, ofJson]
    | some y => simp [h, ofJson, ofReal_eq_amount_iff]

/-- An amount that is held is written as a number that is not refused. -/
theorem isReadable_amountToJson {a : Amount} (h : isHeld again a = true) :
    (amountToJson a).isReadable again = true := by
  rw [amountToJson]
  split
  · rfl
  · next fractional =>
    rw [Json.ofBinary64]
    split
    · next finite =>
      have found := Json.finite?_of_isFinite finite
      simp only [isHeld, fractional, found, Bool.false_or, Option.bind_some, decide_eq_true_eq]
        at h
      show (again ⟨_, finite⟩).isSome = true
      cases read : again ⟨_, finite⟩ with
      | none => simp [read] at h
      | some y => rfl
    · rfl

@[simp] theorem depth_amountToJson (a : Amount) : (amountToJson a).depth = 0 := by
  rw [amountToJson]
  split
  · rfl
  · simp

mutual

/-- A tree is read as itself exactly if each of its nodes is. -/
theorem ofJson_reread_eq_iff :
    (t : Tree) → (ofJson (t.toJson.reread again) = t ↔ t.all (lasts again) = true)
  | .null => by simp [toJson, Json.reread, ofJson, all, lasts]
  | .bool b => by simp [toJson, Json.reread, ofJson, all, lasts]
  | .amount a => by simp [toJson, all, lasts, ofJson_amountToJson_iff]
  | .text s => by simp [toJson, Json.reread, ofJson, all, lasts]
  | .list items => by
    rw [toJson, Json.reread, ofJson, Tree.list.injEq, ofItems_reread_eq_iff items, all_list,
      allItems_iff]
    simp [lasts]
  | .map fields => by
    rw [toJson, Json.reread, ofJson, Tree.map.injEq, ofMembers_reread_eq_iff fields, all_map,
      allFields_iff]
    simp [lasts]

theorem ofItems_reread_eq_iff :
    (items : List Tree) → (ofItems (Json.rereadItems again (itemsToJson items)) = items ↔
      allItems (lasts again) items = true)
  | [] => by simp [allItems]
  | t :: rest => by
    rw [itemsToJson, Json.rereadItems, ofItems, List.cons.injEq, ofJson_reread_eq_iff t,
      ofItems_reread_eq_iff rest, allItems, Bool.and_eq_true]

theorem ofMembers_reread_eq_iff :
    (fields : List (String × Tree)) →
      (ofMembers (Json.rereadMembers again (fieldsToJson fields)) = fields ↔
        allFields (lasts again) fields = true)
  | [] => by simp [Json.rereadMembers, allFields]
  | (key, t) :: rest => by
    rw [fieldsToJson, Json.rereadMembers, ofMembers, List.cons.injEq, Prod.mk.injEq,
      ofJson_reread_eq_iff t, ofMembers_reread_eq_iff rest, allFields, Bool.and_eq_true]
    simp

end

mutual

/-- No floating number of a tree that lasts is refused. -/
theorem isReadable_toJson :
    (t : Tree) → t.all (lasts again) = true → t.toJson.isReadable again = true
  | .null, _ | .bool _, _ | .text _, _ => rfl
  | .amount _, h => isReadable_amountToJson h
  | .list items, h => by
    rw [all, Bool.and_eq_true] at h
    exact isReadableItems_itemsToJson items h.2
  | .map fields, h => by
    rw [all, Bool.and_eq_true] at h
    exact isReadableMembers_fieldsToJson fields h.2

theorem isReadableItems_itemsToJson :
    (items : List Tree) → allItems (lasts again) items = true →
      Json.isReadableItems again (itemsToJson items) = true
  | [], _ => rfl
  | t :: rest, h => by
    rw [allItems, Bool.and_eq_true] at h
    rw [itemsToJson, Json.isReadableItems, isReadable_toJson t h.1,
      isReadableItems_itemsToJson rest h.2]
    rfl

theorem isReadableMembers_fieldsToJson :
    (fields : List (String × Tree)) → allFields (lasts again) fields = true →
      Json.isReadableMembers again (fieldsToJson fields) = true
  | [], _ => rfl
  | (_, t) :: rest, h => by
    rw [allFields, Bool.and_eq_true] at h
    rw [fieldsToJson, Json.isReadableMembers, isReadable_toJson t h.1,
      isReadableMembers_fieldsToJson rest h.2]
    rfl

end

end

/-- A tree whose numbers nothing changes is read as itself exactly if each of its nodes is. -/
theorem ofJson_toJson_eq_iff (t : Tree) : ofJson t.toJson = t ↔ t.all (lasts some) = true := by
  rw [← ofJson_reread_eq_iff, Json.reread_some]

/-- What a number is read as: an amount or a text. -/
theorem ofInteger_cases (n : Int) :
    (∃ a, ofInteger n = .amount a) ∨ ∃ s, ofInteger n = .text s := by
  rw [ofInteger]
  cases Option.or _ (Amount.ofBinary64? (Binary64.ofInt n)) with
  | some a => exact .inl ⟨a, rfl⟩
  | none => exact .inr ⟨_, rfl⟩

theorem ofReal_cases (x : FiniteBinary64) :
    (∃ a, ofReal x = .amount a) ∨ ∃ s, ofReal x = .text s := by
  rw [ofReal]
  cases Amount.ofBinary64? x.1 with
  | some a => exact .inl ⟨a, rfl⟩
  | none => exact .inr ⟨_, rfl⟩

theorem ofString_cases (s : String) : (∃ a, ofString s = .amount a) ∨ ofString s = .text s := by
  rw [ofString]
  split
  · cases Amount.ofText s with
    | ok a => exact .inl ⟨a, rfl⟩
    | error _ => exact .inr rfl
  · exact .inr rfl

theorem depth_amount (a : Amount) : (toJson (.amount a)).depth = 0 := depth_amountToJson a

theorem depth_text (s : String) : (toJson (.text s)).depth = 0 := rfl

mutual

/-- Reading changes scalars only, so nothing comes to stand deeper. -/
theorem depth_toJson_ofJson : (j : Json) → (ofJson j).toJson.depth = j.depth
  | .null | .bool _ => rfl
  | .integer n => by
    rw [ofJson, Json.depth]
    rcases ofInteger_cases n with ⟨a, h⟩ | ⟨s, h⟩ <;> rw [h]
    · exact depth_amount a
    · exact depth_text s
  | .real x => by
    rw [ofJson, Json.depth]
    rcases ofReal_cases x with ⟨a, h⟩ | ⟨s, h⟩ <;> rw [h]
    · exact depth_amount a
    · exact depth_text s
  | .text s => by
    rw [ofJson, Json.depth]
    rcases ofString_cases s with ⟨a, h⟩ | h <;> rw [h]
    · exact depth_amount a
    · exact depth_text s
  | .array items => by
    rw [ofJson, toJson, Json.depth, Json.depth, depthOfItems_itemsToJson items]
  | .object members => by
    rw [ofJson, toJson, Json.depth, Json.depth, depthOfMembers_fieldsToJson members]

theorem depthOfItems_itemsToJson :
    (items : List Json) → Json.depthOfItems (itemsToJson (ofItems items)) = Json.depthOfItems items
  | [] => by rw [ofItems, itemsToJson]
  | v :: rest => by
    rw [ofItems, itemsToJson, Json.depthOfItems, Json.depthOfItems, depth_toJson_ofJson v,
      depthOfItems_itemsToJson rest]

theorem depthOfMembers_fieldsToJson :
    (members : List (String × Json)) →
      Json.depthOfMembers (fieldsToJson (ofMembers members)) = Json.depthOfMembers members
  | [] => by rw [ofMembers, fieldsToJson]
  | (key, v) :: rest => by
    rw [ofMembers, fieldsToJson, Json.depthOfMembers, Json.depthOfMembers, depth_toJson_ofJson v,
      depthOfMembers_fieldsToJson rest]

end

mutual

/-- A well-formed value is read as a well-formed tree. -/
theorem wellFormed_ofJson : (j : Json) → j.WellFormed → (ofJson j).WellFormed
  | .null, _ | .bool _, _ => trivial
  | .integer n, _ => by
    rw [ofJson]
    rcases ofInteger_cases n with ⟨a, h⟩ | ⟨s, h⟩ <;> rw [h] <;> exact trivial
  | .real x, _ => by
    rw [ofJson]
    rcases ofReal_cases x with ⟨a, h⟩ | ⟨s, h⟩ <;> rw [h] <;> exact trivial
  | .text s, _ => by
    rw [ofJson]
    rcases ofString_cases s with ⟨a, h⟩ | h <;> rw [h] <;> exact trivial
  | .array items, h => by
    rw [ofJson]
    exact wellFormedItems_ofItems items h
  | .object members, h => by
    rw [ofJson]
    refine ⟨?_, wellFormedFields_ofMembers members h.2⟩
    rw [ofMembers_eq_map]
    exact List.pairwise_map.2 h.1

theorem wellFormedItems_ofItems :
    (items : List Json) → Json.WellFormedItems items → WellFormedItems (ofItems items)
  | [], _ => trivial
  | v :: rest, h => ⟨wellFormed_ofJson v h.1, wellFormedItems_ofItems rest h.2⟩

theorem wellFormedFields_ofMembers :
    (members : List (String × Json)) → Json.WellFormedMembers members →
      WellFormedFields (ofMembers members)
  | [], _ => trivial
  | (_, v) :: rest, h => ⟨wellFormed_ofJson v h.1, wellFormedFields_ofMembers rest h.2⟩

end

/-- A field is not read as the map it stands in, which is deeper. -/
theorem ofJson_reread_ne_map {again : FiniteBinary64 → Option FiniteBinary64}
    {fields : List (String × Tree)} {f : String × Tree} (h : f ∈ fields) :
    ofJson (f.2.toJson.reread again) ≠ .map fields := by
  intro same
  have depths := depth_toJson_ofJson (f.2.toJson.reread again)
  rw [Json.depth_reread] at depths
  have inner : f.2.toJson.depth ≤ Json.depthOfMembers (fieldsToJson fields) := by
    have member : (f.1, f.2.toJson) ∈ fieldsToJson fields := by
      rw [fieldsToJson_eq_map]
      exact List.mem_map_of_mem h
    exact Json.depth_le_depthOfMembers member
  rw [same, toJson, Json.depth] at depths
  omega

end Tree

end TableMotion
