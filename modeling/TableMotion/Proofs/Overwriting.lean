import TableMotion.Proofs.Shapes
import TableMotion.Schedule

/-!
# Overwriting in trees without lists

`Schedule.putBelow` writes at a place of a tree that may be absent, and leaves the tree alone where
the write has no place. In a tree without lists it acts key by key (`putBelow_cons`), which gives
three laws: a write hides what was written at its place or below it before, writes at places apart
from each other can change their order, and a write below an earlier one changes what the earlier
one wrote. None of them holds in a list, where a removal moves what follows.
-/

namespace TableMotion

/-! ## Dictionaries -/

namespace Dictionary

variable {α : Type}

/-- Puts a value under a key, or takes out what is there for none. -/
def assign (d : Dictionary α) (key : String) : Option α → Dictionary α
  | some value => insert key value d
  | none => erase d key

@[simp] theorem find?_assign_self (d : Dictionary α) (key : String) (value : Option α) :
    find? (assign d key value) key = value := by
  cases value with
  | none => simp [assign, find?_erase]
  | some v => simp [assign]

theorem find?_assign_of_ne (d : Dictionary α) {key other : String} (value : Option α)
    (h : key ≠ other) : find? (assign d key value) other = find? d other := by
  cases value with
  | none => simp [assign, find?_erase, h]
  | some v => exact find?_insert_of_ne d v h

theorem Sorted.assign {d : Dictionary α} (h : Sorted d) (key : String) (value : Option α) :
    Sorted (d.assign key value) := by
  cases value with
  | none => exact h.erase key
  | some v => exact h.insert key v

/-- An entry of the result is the new one or an old one. -/
theorem mem_assign {d : Dictionary α} {key : String} {value : Option α} {e : String × α}
    (h : e ∈ d.assign key value) : value = some e.2 ∨ e ∈ d := by
  cases value with
  | none => exact Or.inr (List.mem_filter.1 h).1
  | some v =>
    rcases mem_insert h with rfl | old
    · exact Or.inl rfl
    · exact Or.inr old

theorem Sorted.assign_find? {d : Dictionary α} (h : Sorted d) (key : String) :
    d.assign key (find? d key) = d := by
  apply (h.assign key _).ext h
  intro other
  by_cases same : key = other
  · subst same
    exact find?_assign_self ..
  · exact find?_assign_of_ne d _ same

theorem Sorted.assign_assign {d : Dictionary α} (h : Sorted d) (key : String)
    (first second : Option α) : (d.assign key first).assign key second = d.assign key second := by
  apply ((h.assign key _).assign key _).ext (h.assign key _)
  intro other
  by_cases same : key = other
  · subst same
    rw [find?_assign_self, find?_assign_self]
  · rw [find?_assign_of_ne _ _ same, find?_assign_of_ne _ _ same, find?_assign_of_ne _ _ same]

theorem Sorted.assign_comm {d : Dictionary α} (h : Sorted d) {key other : String}
    (different : key ≠ other) (first second : Option α) :
    (d.assign key first).assign other second = (d.assign other second).assign key first := by
  apply ((h.assign key _).assign other _).ext ((h.assign other _).assign key _)
  intro k
  by_cases atKey : key = k
  · subst atKey
    rw [find?_assign_of_ne _ _ (Ne.symm different), find?_assign_self, find?_assign_self]
  · by_cases atOther : other = k
    · subst atOther
      rw [find?_assign_self, find?_assign_of_ne _ _ different, find?_assign_self]
    · rw [find?_assign_of_ne _ _ atOther, find?_assign_of_ne _ _ atKey,
        find?_assign_of_ne _ _ atKey, find?_assign_of_ne _ _ atOther]

end Dictionary

/-! ## Trees without lists -/

namespace Tree

theorem plain_map {fields : Dictionary Tree} :
    Plain (.map fields) ↔ Dictionary.Sorted fields ∧ ∀ e ∈ fields, Plain e.2 := by
  have split : ∀ t : Tree, t.Plain ↔ t.all keysInOrder = true ∧ t.all isNoList = true := by
    intro t
    exact ⟨fun h => ⟨(wellFormed_iff_all t).1 h.wellFormed, h.noLists⟩,
      fun h => ⟨(wellFormed_iff_all t).2 h.1, h.2⟩⟩
  rw [split, all_map, all_map, keysInOrder_map]
  simp only [split, isNoList, true_and]
  exact ⟨fun h => ⟨h.1.1, fun e he => ⟨h.1.2 e he, h.2 e he⟩⟩,
    fun h => ⟨⟨h.1, fun e he => (h.2 e he).1⟩, fun e he => (h.2 e he).2⟩⟩

theorem not_plain_list {items : List Tree} : ¬ (Tree.list items).Plain := fun h => by
  have := (all_list.1 h.noLists).1
  cases this

/-- What is under a key of a tree that may be absent. -/
def childOf (s : Option Tree) (key : String) : Option Tree := s.bind (·.child? key)

/-- Puts something under a key, or takes out what is there; only a map changes. -/
def assignChild (s : Option Tree) (key : String) (c : Option Tree) : Option Tree :=
  match s with
  | some (.map fields) => some (.map (Dictionary.assign fields key c))
  | other => other

theorem PlainSlot.childOf {s : Option Tree} (h : PlainSlot s) (key : String) :
    PlainSlot (childOf s key) := by
  intro c found
  obtain ⟨t, rfl, under⟩ := Option.bind_eq_some_iff.1 found
  exact plain_hereditary.child (h t rfl) under

end Tree

/-! ## Writing key by key -/

namespace Schedule

open TableMotion.Tree

@[simp] theorem putBelow_root (s : Option Tree) (v : Option Tree) : putBelow s [] v = v := by
  simp [putBelow, Path.root]

@[simp] theorem putBelow_none (key : String) (p : Path) (v : Option Tree) :
    putBelow none (key :: p) v = none := by
  simp [putBelow, Path.root]

/-- A write that has a place in a tree is made, any other leaves the tree alone. -/
theorem putBelow_some (t : Tree) (key : String) (p : Path) (v : Option Tree) :
    putBelow (some t) (key :: p) v =
      some (match t.put (key :: p) v with
        | .ok changed => changed
        | .error _ => t) := by
  have below : key :: p ≠ Path.root := List.cons_ne_nil key p
  unfold putBelow
  rw [if_neg below]
  rfl

theorem putBelow_of_put {t u : Tree} {p : Path} {v : Option Tree} (made : t.put p v = .ok u) :
    putBelow (some t) p v = some u := by
  cases p with
  | nil =>
    rw [putBelow_root]
    cases v with
    | none =>
      obtain ⟨old, impossible⟩ := put_none_ok.1 made
      cases impossible
    | some value =>
      cases put_some_ok.1 made
      rfl
  | cons key p => rw [putBelow_some, made]

theorem putBelow_of_error {t : Tree} {key : String} {p : Path} {v : Option Tree} {e : WriteError}
    (failed : t.put (key :: p) v = .error e) : putBelow (some t) (key :: p) v = some t := by
  rw [putBelow_some, failed]

end Schedule

/-- A property that writes keep holds of a tree whether or not the write has a place. -/
theorem Tree.Slot.putBelow {P : Tree → Prop} (keeps : Hereditary P) {s v : Option Tree}
    (hs : Slot P s) (hv : Slot P v) (p : Path) : Slot P (Schedule.putBelow s p v) := by
  cases p with
  | nil => rwa [Schedule.putBelow_root]
  | cons key p =>
    cases s with
    | none => rwa [Schedule.putBelow_none]
    | some t =>
      rw [Schedule.putBelow_some]
      split
      · rename_i u done
        exact slot_some.2 (keeps.put (hs t rfl) hv done)
      · exact hs

theorem Tree.PlainSlot.putBelow {s v : Option Tree} (hs : PlainSlot s) (hv : PlainSlot v)
    (p : Path) : PlainSlot (Schedule.putBelow s p v) :=
  Slot.putBelow plain_hereditary hs hv p

theorem Tree.WellFormedSlot.putBelow {s v : Option Tree} (hs : WellFormedSlot s)
    (hv : WellFormedSlot v) (p : Path) : WellFormedSlot (Schedule.putBelow s p v) :=
  Slot.putBelow wellFormed_hereditary hs hv p

namespace Schedule

open TableMotion.Tree

/-- In a map a write goes on under the first key, where nothing else changes. -/
theorem putBelow_map {fields : Dictionary Tree} (sorted : Dictionary.Sorted fields) (key : String)
    (p : Path) (v : Option Tree) :
    putBelow (some (.map fields)) (key :: p) v =
      some (.map (fields.assign key (putBelow (Dictionary.find? fields key) p v))) := by
  cases p with
  | nil =>
    rw [putBelow_some, putBelow_root]
    cases v with
    | none => rfl
    | some value => rfl
  | cons next p =>
    cases done : (Tree.map fields).put (key :: next :: p) v with
    | ok u =>
      obtain ⟨c, d, found, inner, rfl⟩ := put_cons_ok.1 done
      have here : Dictionary.find? fields key = some c := found
      rw [putBelow_of_put done, here, putBelow_of_put inner]
      rfl
    | error e =>
      -- the write has no place under the key either, so both sides stay as they were
      have unchanged := sorted.assign_find? key
      rw [putBelow_of_error done]
      cases found : Dictionary.find? fields key with
      | none =>
        rw [found] at unchanged
        rw [putBelow_none, unchanged]
      | some c =>
        rw [found] at unchanged
        cases inner : c.put (next :: p) v with
        | error e' => rw [putBelow_of_error inner, unchanged]
        | ok d =>
          have below : (Tree.map fields).child? key = some c := found
          have made := put_cons_ok.2 ⟨c, d, below, inner, rfl⟩
          rw [done] at made
          cases made

/-- A leaf holds no place for a write below it. -/
theorem putBelow_leaf {t : Tree} (leaf : t.fields? = none) (plain : t.Plain) (key : String)
    (p : Path) (v : Option Tree) : putBelow (some t) (key :: p) v = some t := by
  have fails : (∀ value, ∃ fault, write value (key :: p) t = .error fault) ∧
      ∃ fault, takeOut (key :: p) t = .error fault := by
    cases t with
    | map fields => simp [fields?] at leaf
    | list items => exact absurd plain not_plain_list
    | null | bool | amount | text =>
      cases p with
      | nil => exact ⟨fun _ => ⟨_, rfl⟩, _, rfl⟩
      | cons next p => exact ⟨fun _ => ⟨_, rfl⟩, _, rfl⟩
  rw [putBelow_some]
  cases v with
  | none =>
    obtain ⟨fault, failed⟩ := fails.2
    rw [put_none_of_error failed]
  | some value =>
    obtain ⟨fault, failed⟩ := fails.1 value
    rw [put_some_of_error failed]

/-- A write acts under the first key of its path only. -/
theorem putBelow_cons {s : Option Tree} (plain : PlainSlot s) (key : String) (p : Path)
    (v : Option Tree) :
    putBelow s (key :: p) v = assignChild s key (putBelow (childOf s key) p v) := by
  match s with
  | none => simp [assignChild]
  | some (.map fields) =>
    have sorted := (plain_map.1 (slot_some.1 plain)).1
    rw [putBelow_map sorted]
    rfl
  | some (.list items) => exact absurd (plain _ rfl) not_plain_list
  | some .null | some (.bool _) | some (.amount _) | some (.text _) =>
    rw [putBelow_leaf rfl (plain _ rfl)]
    rfl

/-- Of two writes under one key the second acts on what the first left there. -/
theorem putBelow_cons_putBelow_cons {s v : Option Tree} (hs : PlainSlot s) (hv : PlainSlot v)
    (key : String) (p q : Path) (w : Option Tree) :
    putBelow (putBelow s (key :: p) v) (key :: q) w =
      assignChild s key (putBelow (putBelow (childOf s key) p v) q w) := by
  rw [putBelow_cons (hs.putBelow hv _), putBelow_cons hs]
  match s with
  | some (.map fields) =>
    have sorted := (plain_map.1 (slot_some.1 hs)).1
    simp [assignChild, childOf, child?, sorted.assign_assign]
  | some (.list items) => exact absurd (hs _ rfl) not_plain_list
  | none | some .null | some (.bool _) | some (.amount _) | some (.text _) => rfl

/-! ## The laws of writing -/

/-- A write hides what was written at its place or below it before. -/
theorem putBelow_hides {s w : Option Tree} (hs : PlainSlot s) (hw : PlainSlot w) (p rest : Path)
    (v : Option Tree) : putBelow (putBelow s (p ++ rest) w) p v = putBelow s p v := by
  induction p generalizing s with
  | nil => simp
  | cons key p ih =>
    rw [List.cons_append, putBelow_cons_putBelow_cons hs hw, ih (hs.childOf key),
      putBelow_cons hs]

/-- A write below an earlier one changes what the earlier one wrote. -/
theorem putBelow_append {s w : Option Tree} (hs : PlainSlot s) (hw : PlainSlot w) (p rest : Path)
    (v : Option Tree) :
    putBelow (putBelow s p w) (p ++ rest) v = putBelow s p (putBelow w rest v) := by
  induction p generalizing s with
  | nil => simp
  | cons key p ih =>
    rw [List.cons_append, putBelow_cons_putBelow_cons hs hw, ih (hs.childOf key),
      putBelow_cons hs]

/-- Writes at places apart from each other can change their order. -/
theorem putBelow_comm {s v w : Option Tree} (hs : PlainSlot s) (hv : PlainSlot v)
    (hw : PlainSlot w) {p q : Path} (hpq : p.covers q = false) (hqp : q.covers p = false) :
    putBelow (putBelow s p v) q w = putBelow (putBelow s q w) p v := by
  induction p generalizing s q with
  | nil => simp [Path.covers] at hpq
  | cons key p ih =>
    cases q with
    | nil => simp [Path.covers] at hqp
    | cons other q =>
      by_cases same : key = other
      · subst same
        have hpq' : Path.covers p q = false := by simpa [Path.covers] using hpq
        have hqp' : Path.covers q p = false := by simpa [Path.covers] using hqp
        rw [putBelow_cons_putBelow_cons hs hv, putBelow_cons_putBelow_cons hs hw,
          ih (hs.childOf key) hpq' hqp']
      · rw [putBelow_cons (hs.putBelow hv _), putBelow_cons hs,
          putBelow_cons (hs.putBelow hw _), putBelow_cons hs]
        cases s with
        | none => rfl
        | some t =>
          cases t with
          | map fields =>
            have sorted := (plain_map.1 (slot_some.1 hs)).1
            simp [assignChild, childOf, child?, sorted.assign_comm same,
              Dictionary.find?_assign_of_ne _ _ same,
              Dictionary.find?_assign_of_ne _ _ (Ne.symm same)]
          | list items => exact absurd (hs _ rfl) not_plain_list
          | null | bool | amount | text => rfl

end Schedule

end TableMotion
