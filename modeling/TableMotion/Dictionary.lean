/-!
# Dictionaries

A dictionary is a list of keyed values, one for each key, with the keys in the order of their text.
The order is a property of the list (`Dictionary.Sorted`), and every operation here keeps it.
-/

namespace TableMotion

/-- Keyed values in the order of their keys. -/
abbrev Dictionary (α : Type) := List (String × α)

namespace Dictionary

variable {α : Type}

/-- The keys are strictly increasing. -/
def Sorted (d : Dictionary α) : Prop := d.Pairwise fun a b => a.1 < b.1

instance (d : Dictionary α) : Decidable (Sorted d) := inferInstanceAs (Decidable (List.Pairwise _ d))

/-- The value under a key. -/
def find? : Dictionary α → String → Option α
  | [], _ => none
  | (k, v) :: rest, key => if k = key then some v else find? rest key

/-- Puts a value under a key, in place of the one there. -/
def insert (key : String) (value : α) : Dictionary α → Dictionary α
  | [] => [(key, value)]
  | (k, v) :: rest =>
    if key < k then (key, value) :: (k, v) :: rest
    else if k = key then (key, value) :: rest
    else (k, v) :: insert key value rest

/-- Takes a key and its value out. -/
def erase (d : Dictionary α) (key : String) : Dictionary α := d.filter fun e => e.1 ≠ key

/-! ## What is found -/

@[simp] theorem find?_nil (key : String) : find? ([] : Dictionary α) key = none := rfl

theorem find?_cons (k : String) (v : α) (d : Dictionary α) (key : String) :
    find? ((k, v) :: d) key = if k = key then some v else find? d key := rfl

@[simp] theorem find?_insert_self (d : Dictionary α) (key : String) (value : α) :
    find? (insert key value d) key = some value := by
  induction d with
  | nil => simp [insert, find?]
  | cons e rest ih => grind [insert, find?]

theorem find?_insert_of_ne (d : Dictionary α) {key other : String} (value : α)
    (h : key ≠ other) : find? (insert key value d) other = find? d other := by
  induction d with
  | nil => simp [insert, find?, h]
  | cons e rest ih => grind [insert, find?]

theorem find?_erase (d : Dictionary α) (key other : String) :
    find? (erase d key) other = if key = other then none else find? d other := by
  induction d with
  | nil => simp [erase]
  | cons e rest ih => grind [erase, find?]

/-! ## The order of the keys -/

theorem sorted_nil : Sorted ([] : Dictionary α) := List.Pairwise.nil

theorem sorted_cons {k : String} {v : α} {d : Dictionary α} :
    Sorted ((k, v) :: d) ↔ (∀ e ∈ d, k < e.1) ∧ Sorted d := List.pairwise_cons

/-- An entry of the result is the new one or an old one. -/
theorem mem_insert {d : Dictionary α} {key : String} {value : α} {e : String × α}
    (h : e ∈ insert key value d) : e = (key, value) ∨ e ∈ d := by
  induction d with
  | nil => simpa [insert] using h
  | cons a rest ih => grind [insert]

theorem Sorted.insert {d : Dictionary α} (h : Sorted d) (key : String) (value : α) :
    Sorted (Dictionary.insert key value d) := by
  induction d with
  | nil => simp [Dictionary.insert, Sorted]
  | cons e rest ih =>
    obtain ⟨k, v⟩ := e
    obtain ⟨above, ordered⟩ := sorted_cons.1 h
    unfold Dictionary.insert
    split
    · grind [sorted_cons]
    · split
      · grind [sorted_cons]
      · refine sorted_cons.2 ⟨fun a ha => ?_, ih ordered⟩
        rcases mem_insert ha with rfl | ha
        · grind
        · exact above a ha

theorem Sorted.erase {d : Dictionary α} (h : Sorted d) (key : String) :
    Sorted (Dictionary.erase d key) := h.filter _

/-- What is found under some key is an entry. -/
theorem mem_of_find? {d : Dictionary α} {key : String} {value : α}
    (h : find? d key = some value) : (key, value) ∈ d := by
  induction d with
  | nil => simp at h
  | cons e rest ih => grind [find?]

theorem Sorted.find?_eq_some_iff {d : Dictionary α} (h : Sorted d) {key : String} {value : α} :
    find? d key = some value ↔ (key, value) ∈ d := by
  refine ⟨mem_of_find?, fun member => ?_⟩
  induction d with
  | nil => simp at member
  | cons e rest ih =>
    obtain ⟨above, ordered⟩ := sorted_cons.1 h
    rcases List.mem_cons.1 member with rfl | member
    · simp [find?_cons]
    · have := above _ member
      grind [find?]

theorem find?_eq_none_of_lt {d : Dictionary α} {key : String} (h : ∀ e ∈ d, key < e.1) :
    find? d key = none := by
  induction d with
  | nil => rfl
  | cons e rest ih => grind [find?]

/-- A dictionary in order is known by what is found in it. -/
theorem Sorted.ext {d e : Dictionary α} (hd : Sorted d) (he : Sorted e)
    (h : ∀ key, find? d key = find? e key) : d = e := by
  induction d generalizing e with
  | nil =>
    cases e with
    | nil => rfl
    | cons b rest =>
      have := h b.1
      simp [find?] at this
  | cons a d ih =>
    cases e with
    | nil =>
      have := h a.1
      simp [find?] at this
    | cons b e =>
      obtain ⟨k, v⟩ := a
      obtain ⟨l, w⟩ := b
      obtain ⟨aboveD, orderedD⟩ := sorted_cons.1 hd
      obtain ⟨aboveE, orderedE⟩ := sorted_cons.1 he
      have keys : k = l := by
        have atK := h k
        have atL := h l
        have absentK : (∀ x ∈ e, k < x.1) → find? e k = none := find?_eq_none_of_lt
        have absentL : (∀ x ∈ d, l < x.1) → find? d l = none := find?_eq_none_of_lt
        grind [find?_cons]
      subst keys
      have values : v = w := by simpa [find?_cons] using h k
      subst values
      have : d = e := ih orderedD orderedE fun key => by
        have found := h key
        have absentD := find?_eq_none_of_lt aboveD
        have absentE := find?_eq_none_of_lt aboveE
        grind [find?_cons]
      rw [this]

/-! ## Values -/

section

variable {β : Type} (f : α → β) (d : Dictionary α) (key : String)

/-- Applies a function to every value. -/
def mapValues : Dictionary β := d.map fun e => (e.1, f e.2)

theorem find?_mapValues : find? (mapValues f d) key = (find? d key).map f := by
  induction d with
  | nil => rfl
  | cons e rest ih =>
    show (if e.1 = key then some (f e.2) else find? (mapValues f rest) key) =
      (if e.1 = key then some e.2 else find? rest key).map f
    split
    · rfl
    · exact ih

theorem insert_mapValues (value : α) :
    insert key (f value) (mapValues f d) = mapValues f (insert key value d) := by
  induction d with
  | nil => rfl
  | cons e rest ih =>
    obtain ⟨k, v⟩ := e
    show insert key (f value) ((k, f v) :: mapValues f rest) = _
    unfold insert
    split
    · rfl
    · split
      · rfl
      · rw [ih]
        rfl

theorem erase_mapValues : erase (mapValues f d) key = mapValues f (erase d key) := by
  simp only [erase, mapValues, List.filter_map]
  rfl

theorem Sorted.mapValues {d : Dictionary α} (h : Sorted d) :
    Sorted (Dictionary.mapValues f d) := List.pairwise_map.2 h

end

end Dictionary

end TableMotion
