import TableMotion.Tree.Access

/-!
# Shapes of trees

Three properties that a tree has if each of its nodes has them: the keys of maps are in order, there
are no lists, lists are short enough for every item to have a key. A write that puts in a tree with
such a property keeps it (`LocalLaw.put`).
-/

namespace TableMotion

namespace Tree

mutual

/-- Whether every node of a tree passes a test. -/
def all (ok : Tree → Bool) : Tree → Bool
  | .list items => ok (.list items) && allItems ok items
  | .map fields => ok (.map fields) && allFields ok fields
  | .null => ok .null
  | .bool b => ok (.bool b)
  | .amount a => ok (.amount a)
  | .text s => ok (.text s)

/-- Whether every node in a row of trees passes a test. -/
def allItems (ok : Tree → Bool) : List Tree → Bool
  | [] => true
  | t :: rest => all ok t && allItems ok rest

/-- Whether every node under some fields passes a test. -/
def allFields (ok : Tree → Bool) : List (String × Tree) → Bool
  | [] => true
  | (_, t) :: rest => all ok t && allFields ok rest

end

variable {ok : Tree → Bool}

theorem allItems_iff {items : List Tree} :
    allItems ok items = true ↔ ∀ t ∈ items, t.all ok = true := by
  induction items with
  | nil => simp [allItems]
  | cons t rest ih => simp [allItems, ih]

theorem allFields_iff {fields : List (String × Tree)} :
    allFields ok fields = true ↔ ∀ e ∈ fields, e.2.all ok = true := by
  induction fields with
  | nil => simp [allFields]
  | cons e rest ih => simp [allFields, ih]

theorem all_list {items : List Tree} :
    (Tree.list items).all ok = true ↔ ok (.list items) = true ∧ ∀ t ∈ items, t.all ok = true := by
  rw [all, Bool.and_eq_true, allItems_iff]

theorem all_map {fields : List (String × Tree)} :
    (Tree.map fields).all ok = true ↔
      ok (.map fields) = true ∧ ∀ e ∈ fields, e.2.all ok = true := by
  rw [all, Bool.and_eq_true, allFields_iff]

theorem ok_of_all {t : Tree} (h : t.all ok = true) : ok t = true := by
  cases t with
  | list items => exact (all_list.1 h).1
  | map fields => exact (all_map.1 h).1
  | null | bool | amount | text => exact h

theorem all_child {t c : Tree} {key : String} (h : t.all ok = true)
    (found : t.child? key = some c) : c.all ok = true := by
  cases t with
  | map fields => exact (all_map.1 h).2 _ (Dictionary.mem_of_find? found)
  | list items =>
    obtain ⟨i, -, atIndex⟩ := Option.bind_eq_some_iff.1 found
    exact (all_list.1 h).2 c (List.mem_of_getElem? atIndex)
  | null | bool | amount | text => simp [child?] at found

mutual

/-- A weaker test passes too. -/
theorem all_imp {other : Tree → Bool} (imp : ∀ t, ok t = true → other t = true) :
    (t : Tree) → t.all ok = true → t.all other = true
  | .list items, h => by
    obtain ⟨node, inner⟩ := all_list.1 h
    exact all_list.2 ⟨imp _ node, allItems_iff.1 (allItems_imp imp items (allItems_iff.2 inner))⟩
  | .map fields, h => by
    obtain ⟨node, inner⟩ := all_map.1 h
    exact all_map.2
      ⟨imp _ node, allFields_iff.1 (allFields_imp imp fields (allFields_iff.2 inner))⟩
  | .null, h | .bool _, h | .amount _, h | .text _, h => imp _ h

theorem allItems_imp {other : Tree → Bool} (imp : ∀ t, ok t = true → other t = true) :
    (items : List Tree) → allItems ok items = true → allItems other items = true
  | [], _ => rfl
  | t :: rest, h => by
    obtain ⟨first, others⟩ := Bool.and_eq_true_iff.1 h
    exact Bool.and_eq_true_iff.2 ⟨all_imp imp t first, allItems_imp imp rest others⟩

theorem allFields_imp {other : Tree → Bool} (imp : ∀ t, ok t = true → other t = true) :
    (fields : List (String × Tree)) → allFields ok fields = true → allFields other fields = true
  | [], _ => rfl
  | (_, t) :: rest, h => by
    obtain ⟨first, others⟩ := Bool.and_eq_true_iff.1 h
    exact Bool.and_eq_true_iff.2 ⟨all_imp imp t first, allFields_imp imp rest others⟩

end

/-! ## Writes that succeed -/

theorem write_cons_ok {value t u : Tree} {key next : String} {p : Path} :
    write value (key :: next :: p) t = .ok u ↔
      ∃ c d, t.child? key = some c ∧ write value (next :: p) c = .ok d ∧
        t.replaceChild key d = u := by
  rw [write_cons]
  cases t.child? key with
  | none => simp
  | some c => cases inner : write value (next :: p) c <;> simp [inner, Except.map]

theorem takeOut_cons_ok {t : Tree} {key next : String} {p : Path} {r : Option Tree × Tree} :
    takeOut (key :: next :: p) t = .ok r ↔
      ∃ c d, t.child? key = some c ∧ takeOut (next :: p) c = .ok d ∧
        (d.1, t.replaceChild key d.2) = r := by
  rw [takeOut_cons]
  cases t.child? key with
  | none => simp
  | some c =>
    cases inner : takeOut (next :: p) c with
    | error e => simp [inner, Except.map]
    | ok d =>
      obtain ⟨old, left⟩ := d
      simp only [inner, Except.map, Except.ok.injEq, Option.some.injEq, exists_eq_left',
        exists_and_left]

section Admits

variable {t value c : Tree} {stem p : Path} {key : String}

/-- A map takes a value under any key, a list at an index up to its length. -/
def Admits (t : Tree) (key : String) : Prop :=
  match t with
  | .map _ => True
  | .list items => ∃ i, Path.index? key = some i ∧ i ≤ items.length
  | .null | .bool _ | .amount _ | .text _ => False

theorem admits_of_child? (found : t.child? key = some c) : t.Admits key := by
  cases t with
  | map fields => trivial
  | list items =>
    obtain ⟨i, named, located⟩ := Option.bind_eq_some_iff.1 found
    exact ⟨i, named, Nat.le_of_lt (List.getElem?_eq_some_iff.1 located).1⟩
  | null | bool | amount | text => cases found

theorem exists_setChild_iff : (∃ u, t.setChild key value = .ok u) ↔ t.Admits key := by
  cases t with
  | map fields => exact ⟨fun _ => trivial, fun _ => ⟨_, rfl⟩⟩
  | list items =>
    cases named : Path.index? key with
    | none => simp [setChild, Admits, named]
    | some i =>
      simp only [setChild, Admits, named, Option.some.injEq, exists_eq_left']
      split
      · simp [Nat.le_of_lt, *]
      · split
        · simp [*]
        · simp
          omega
  | null | bool | amount | text => simp [setChild, Admits]

/-- A write under a key is made exactly if the node above is there and takes the key. -/
theorem exists_write_iff : (∃ u, write value (stem ++ [key]) t = .ok u) ↔
    ∃ d, t.get? stem = some d ∧ d.Admits key := by
  induction stem generalizing t with
  | nil => simp [write, get?, exists_setChild_iff]
  | cons first stem ih =>
    obtain ⟨next, rest, split⟩ := List.exists_cons_of_ne_nil (List.concat_ne_nil key stem)
    rw [split] at ih
    rw [List.cons_append, split, get?_cons]
    constructor
    · rintro ⟨u, made⟩
      obtain ⟨e, inside, under, inner, -⟩ := write_cons_ok.1 made
      rw [under]
      exact ih.1 ⟨inside, inner⟩
    · rintro ⟨d, found, admits⟩
      obtain ⟨e, under, below⟩ := Option.bind_eq_some_iff.1 found
      obtain ⟨inside, inner⟩ := ih.2 ⟨d, below, admits⟩
      exact ⟨_, write_cons_ok.2 ⟨e, inside, under, inner, rfl⟩⟩

/-- A node can be replaced where one is. -/
theorem exists_write_of_get? (there : t.get? p = some c) (value : Tree) :
    ∃ u, write value p t = .ok u := by
  rcases List.eq_nil_or_concat p with rfl | ⟨stem, key, rfl⟩
  · exact ⟨value, rfl⟩
  · rw [List.concat_eq_append] at there ⊢
    rw [get?_append] at there
    obtain ⟨d, above, under⟩ := Option.bind_eq_some_iff.1 there
    obtain ⟨e, found, -⟩ := Option.bind_eq_some_iff.1 (get?_cons d key [] ▸ under)
    exact exists_write_iff.2 ⟨d, above, admits_of_child? found⟩

end Admits

section Put

variable {t u value : Tree} {p : Path} {fault : WriteFault}

theorem put_some_of_ok (done : write value p t = .ok u) : t.put p (some value) = .ok u := by
  rw [put, Tree.set, done]
  rfl

theorem put_some_of_error (failed : write value p t = .error fault) :
    t.put p (some value) = .error ⟨fault, p⟩ := by
  rw [put, Tree.set, failed]
  rfl

theorem put_none_of_ok {old : Option Tree} (done : takeOut p t = .ok (old, u)) :
    t.put p none = .ok u := by
  rw [put, Tree.remove, done]
  rfl

theorem put_none_of_error (failed : takeOut p t = .error fault) :
    t.put p none = .error ⟨fault, p⟩ := by
  rw [put, Tree.remove, failed]
  rfl

theorem put_some_ok : t.put p (some value) = .ok u ↔ write value p t = .ok u := by
  cases done : write value p t with
  | error fault => simp [put_some_of_error done]
  | ok left => simp [put_some_of_ok done]

theorem put_none_ok : t.put p none = .ok u ↔ ∃ old, takeOut p t = .ok (old, u) := by
  cases done : takeOut p t with
  | error fault => simp [put_none_of_error done]
  | ok r =>
    obtain ⟨old, left⟩ := r
    simp [put_none_of_ok done]

/-- A write below a child is made in the child. -/
theorem put_cons_ok {key next : String} {v : Option Tree} :
    t.put (key :: next :: p) v = .ok u ↔
      ∃ c d, t.child? key = some c ∧ c.put (next :: p) v = .ok d ∧ t.replaceChild key d = u := by
  cases v with
  | some value =>
    rw [put_some_ok, write_cons_ok]
    simp only [put_some_ok]
  | none =>
    rw [put_none_ok]
    constructor
    · rintro ⟨old, done⟩
      obtain ⟨c, ⟨old', d⟩, found, inner, same⟩ := takeOut_cons_ok.1 done
      exact ⟨c, d, found, put_none_of_ok inner, congrArg (·.2) same⟩
    · rintro ⟨c, d, found, made, rfl⟩
      obtain ⟨old, inner⟩ := put_none_ok.1 made
      exact ⟨old, takeOut_cons_ok.2 ⟨c, (old, d), found, inner, rfl⟩⟩

end Put

/-! ## Tests that writes keep -/

/-- A test of nodes that looks at no more than what a write of a child keeps. -/
structure LocalLaw (ok : Tree → Bool) : Prop where
  replaceChild : ∀ {t : Tree} (key : String) (value : Tree), ok t = true →
    ok (t.replaceChild key value) = true
  setChild : ∀ {t u : Tree} {key : String} {value : Tree}, ok t = true →
    t.setChild key value = .ok u → ok u = true
  removeChild : ∀ {t : Tree} {key : String} {r : Option Tree × Tree}, ok t = true →
    t.removeChild key = .ok r → ok r.2 = true

theorem all_map_insert {fields : Dictionary Tree} {value : Tree} {key : String}
    (h : (Tree.map fields).all ok = true) (hv : value.all ok = true)
    (node : ok (.map (Dictionary.insert key value fields)) = true) :
    (Tree.map (Dictionary.insert key value fields)).all ok = true := by
  refine all_map.2 ⟨node, ?_⟩
  intro e he
  rcases Dictionary.mem_insert he with rfl | old
  · exact hv
  · exact (all_map.1 h).2 e old

theorem all_list_set {items : List Tree} {value : Tree} {i : Nat}
    (h : (Tree.list items).all ok = true) (hv : value.all ok = true)
    (node : ok (.list (items.set i value)) = true) :
    (Tree.list (items.set i value)).all ok = true := by
  refine all_list.2 ⟨node, ?_⟩
  intro t ht
  rcases List.mem_or_eq_of_mem_set ht with old | rfl
  · exact (all_list.1 h).2 t old
  · exact hv

namespace LocalLaw

variable (law : LocalLaw ok)

include law

theorem all_replaceChild {t value : Tree} (h : t.all ok = true) (hv : value.all ok = true)
    (key : String) : (t.replaceChild key value).all ok = true := by
  have node := law.replaceChild key value (ok_of_all h)
  cases t with
  | map fields => exact all_map_insert h hv node
  | list items =>
    simp only [Tree.replaceChild] at node ⊢
    split
    · rename_i i named
      simp only [named] at node
      exact all_list_set h hv node
    · exact h
  | null | bool | amount | text => exact h

theorem all_setChild {t u value : Tree} {key : String} (h : t.all ok = true)
    (hv : value.all ok = true) (done : t.setChild key value = .ok u) : u.all ok = true := by
  have node := law.setChild (ok_of_all h) done
  cases t with
  | map fields =>
    cases done
    exact all_map_insert h hv node
  | list items =>
    simp only [Tree.setChild] at done
    split at done
    · cases done
    · split at done
      · cases done
        exact all_list_set h hv node
      · split at done
        · -- an item that is appended
          cases done
          refine all_list.2 ⟨node, ?_⟩
          intro t ht
          rcases List.mem_append.1 ht with old | new
          · exact (all_list.1 h).2 t old
          · rwa [List.mem_singleton.1 new]
        · cases done
  | null | bool | amount | text => cases done

theorem all_removeChild {t : Tree} {key : String} {r : Option Tree × Tree} (h : t.all ok = true)
    (done : t.removeChild key = .ok r) : r.2.all ok = true := by
  have node := law.removeChild (ok_of_all h) done
  cases t with
  | map fields =>
    cases done
    exact all_map.2 ⟨node, fun e he => (all_map.1 h).2 e (List.mem_filter.1 he).1⟩
  | list items =>
    simp only [Tree.removeChild] at done
    split at done
    · cases done
    · cases done
      exact all_list.2 ⟨node, fun t ht => (all_list.1 h).2 t (List.mem_of_mem_eraseIdx ht)⟩
  | null | bool | amount | text => cases done

theorem all_write {t u value : Tree} {p : Path} (h : t.all ok = true)
    (hv : value.all ok = true) (done : write value p t = .ok u) : u.all ok = true := by
  induction p generalizing t u with
  | nil =>
    cases done
    exact hv
  | cons key p ih =>
    cases p with
    | nil => exact law.all_setChild h hv done
    | cons next p =>
      obtain ⟨c, d, found, inner, rfl⟩ := write_cons_ok.1 done
      exact law.all_replaceChild h (ih (all_child h found) inner) key

theorem all_takeOut {t : Tree} {p : Path} {r : Option Tree × Tree} (h : t.all ok = true)
    (done : takeOut p t = .ok r) : r.2.all ok = true := by
  induction p generalizing t r with
  | nil => cases done
  | cons key p ih =>
    cases p with
    | nil => exact law.all_removeChild h done
    | cons next p =>
      obtain ⟨c, d, found, inner, rfl⟩ := takeOut_cons_ok.1 done
      exact law.all_replaceChild h (ih (all_child h found) inner) key

theorem all_put {t u : Tree} {p : Path} {v : Option Tree} (h : t.all ok = true)
    (hv : ∀ value, v = some value → value.all ok = true) (done : t.put p v = .ok u) :
    u.all ok = true := by
  cases v with
  | none =>
    obtain ⟨old, inner⟩ := put_none_ok.1 done
    exact law.all_takeOut h inner
  | some value => exact law.all_write h (hv value rfl) (put_some_ok.1 done)

end LocalLaw

/-! ## The three tests -/

/-- Whether the keys of a node, if it is a map, are in order. -/
def keysInOrder : Tree → Bool
  | .map fields => decide (fields.Pairwise fun a b => a.1 < b.1)
  | _ => true

theorem keysInOrder_map {fields : Dictionary Tree} :
    keysInOrder (.map fields) = true ↔ Dictionary.Sorted fields := by
  simp [keysInOrder, Dictionary.Sorted]

def isNoList : Tree → Bool
  | .list _ => false
  | _ => true

/-- Whether every item of a node, if it is a list, has a key. -/
def isAddressable : Tree → Bool
  | .list items => items.length ≤ 0x10000000000000000
  | _ => true

theorem keysInOrder_law : LocalLaw keysInOrder where
  replaceChild := by
    intro t key value h
    cases t with
    | map fields => exact keysInOrder_map.2 ((keysInOrder_map.1 h).insert key value)
    | list items =>
      simp only [Tree.replaceChild]
      split <;> rfl
    | null | bool | amount | text => rfl
  setChild := by
    intro t u key value h done
    cases t with
    | map fields =>
      cases done
      exact keysInOrder_map.2 ((keysInOrder_map.1 h).insert key value)
    | list items =>
      simp only [Tree.setChild] at done
      grind [keysInOrder]
    | null | bool | amount | text => cases done
  removeChild := by
    intro t key r h done
    cases t with
    | map fields =>
      cases done
      exact keysInOrder_map.2 ((keysInOrder_map.1 h).erase key)
    | list items =>
      simp only [Tree.removeChild] at done
      grind [keysInOrder]
    | null | bool | amount | text => cases done

theorem isAddressable_law : LocalLaw isAddressable where
  replaceChild := by
    intro t key value h
    cases t with
    | list items =>
      simp only [Tree.replaceChild]
      split
      · simpa [isAddressable] using h
      · exact h
    | map | null | bool | amount | text => rfl
  setChild := by
    intro t u key value h done
    cases t with
    | list items =>
      have short : items.length ≤ 0x10000000000000000 := by simpa [isAddressable] using h
      simp only [Tree.setChild] at done
      split at done
      · cases done
      · rename_i i named
        -- an item that is appended has the index of its key
        have := (Path.eq_indexKey_of_index? named).2
        split at done
        · cases done
          simpa [isAddressable] using short
        · split at done
          · cases done
            simp only [isAddressable, List.length_append, List.length_singleton, decide_eq_true_eq]
            omega
          · cases done
    | map fields =>
      cases done
      rfl
    | null | bool | amount | text => cases done
  removeChild := by
    intro t key r h done
    cases t with
    | list items =>
      have short : items.length ≤ 0x10000000000000000 := by simpa [isAddressable] using h
      simp only [Tree.removeChild] at done
      split at done
      · cases done
      · cases done
        have := items.length_eraseIdx_le
        simp only [isAddressable, decide_eq_true_eq]
        grind
    | map fields =>
      cases done
      rfl
    | null | bool | amount | text => cases done

theorem isNoList_law : LocalLaw isNoList where
  replaceChild := by
    intro t key value h
    cases t with
    | list items => cases h
    | map | null | bool | amount | text => rfl
  setChild := by
    intro t u key value h done
    cases t with
    | list items => cases h
    | map fields =>
      cases done
      rfl
    | null | bool | amount | text => cases done
  removeChild := by
    intro t key r h done
    cases t with
    | list items => cases h
    | map fields =>
      cases done
      rfl
    | null | bool | amount | text => cases done

mutual

theorem wellFormed_iff_all : (t : Tree) → (t.WellFormed ↔ t.all keysInOrder = true)
  | .list items => by
    rw [WellFormed, all, wellFormedItems_iff_all items]
    simp [keysInOrder]
  | .map fields => by
    rw [WellFormed, all, wellFormedFields_iff_all fields, Bool.and_eq_true, keysInOrder_map]
  | .null | .bool _ | .amount _ | .text _ => by simp [WellFormed, all, keysInOrder]

theorem wellFormedItems_iff_all :
    (items : List Tree) → (WellFormedItems items ↔ allItems keysInOrder items = true)
  | [] => by simp [WellFormedItems, allItems]
  | t :: rest => by
    rw [WellFormedItems, allItems, wellFormed_iff_all t, wellFormedItems_iff_all rest,
      Bool.and_eq_true]

theorem wellFormedFields_iff_all :
    (fields : List (String × Tree)) →
      (WellFormedFields fields ↔ allFields keysInOrder fields = true)
  | [] => by simp [WellFormedFields, allFields]
  | (_, t) :: rest => by
    rw [WellFormedFields, allFields, wellFormed_iff_all t, wellFormedFields_iff_all rest,
      Bool.and_eq_true]

end

theorem wellFormed_map {fields : Dictionary Tree} :
    (Tree.map fields).WellFormed ↔ Dictionary.Sorted fields ∧ ∀ e ∈ fields, e.2.WellFormed := by
  rw [wellFormed_iff_all, all_map, keysInOrder_map]
  simp only [wellFormed_iff_all]

instance (t : Tree) : Decidable t.WellFormed := decidable_of_iff _ (wellFormed_iff_all t).symm

/-- No node of the tree is a list. -/
def NoLists (t : Tree) : Prop := t.all isNoList = true

/-- Every item of the lists of the tree has a key. -/
def Addressable (t : Tree) : Prop := t.all isAddressable = true

instance (t : Tree) : Decidable t.NoLists := inferInstanceAs (Decidable (_ = true))

instance (t : Tree) : Decidable t.Addressable := inferInstanceAs (Decidable (_ = true))

/-- A well-formed tree without lists. -/
structure Plain (t : Tree) : Prop where
  wellFormed : t.WellFormed
  noLists : t.NoLists

theorem plain_iff {t : Tree} : t.Plain ↔ t.WellFormed ∧ t.NoLists :=
  ⟨fun h => ⟨h.wellFormed, h.noLists⟩, fun h => ⟨h.1, h.2⟩⟩

instance (t : Tree) : Decidable t.Plain := decidable_of_iff _ plain_iff.symm

/-- A well-formed tree whose nodes all have paths. -/
structure Regular (t : Tree) : Prop where
  wellFormed : t.WellFormed
  addressable : t.Addressable

theorem regular_iff {t : Tree} : t.Regular ↔ t.WellFormed ∧ t.Addressable :=
  ⟨fun h => ⟨h.wellFormed, h.addressable⟩, fun h => ⟨h.1, h.2⟩⟩

instance (t : Tree) : Decidable t.Regular := decidable_of_iff _ regular_iff.symm

/-- What holds no lists holds none that are too long. -/
theorem Plain.regular {t : Tree} (h : t.Plain) : t.Regular := by
  refine ⟨h.wellFormed, all_imp (fun u noList => ?_) t h.noLists⟩
  cases u with
  | list items => cases noList
  | map | null | bool | amount | text => rfl

/-! ## Properties that writes keep -/

/-- A property of trees that their parts have too and writes keep. -/
structure Hereditary (P : Tree → Prop) : Prop where
  child : ∀ {t c : Tree} {key : String}, P t → t.child? key = some c → P c
  put : ∀ {t u : Tree} {p : Path} {v : Option Tree}, P t → (∀ value, v = some value → P value) →
    t.put p v = .ok u → P u

theorem LocalLaw.hereditary {ok : Tree → Bool} (law : LocalLaw ok) :
    Hereditary fun t => t.all ok = true where
  child h found := all_child h found
  put h hv done := law.all_put h hv done

theorem Hereditary.and {P Q R : Tree → Prop} (hP : Hereditary P) (hQ : Hereditary Q)
    (same : ∀ t, R t ↔ P t ∧ Q t) : Hereditary R where
  child h found :=
    (same _).2 ⟨hP.child ((same _).1 h).1 found, hQ.child ((same _).1 h).2 found⟩
  put h hv done := (same _).2
    ⟨hP.put ((same _).1 h).1 (fun value present => ((same _).1 (hv value present)).1) done,
      hQ.put ((same _).1 h).2 (fun value present => ((same _).1 (hv value present)).2) done⟩

theorem wellFormed_hereditary : Hereditary WellFormed where
  child h found :=
    (wellFormed_iff_all _).2 (all_child ((wellFormed_iff_all _).1 h) found)
  put h hv done := (wellFormed_iff_all _).2 (keysInOrder_law.all_put ((wellFormed_iff_all _).1 h)
    (fun value present => (wellFormed_iff_all _).1 (hv value present)) done)

theorem plain_hereditary : Hereditary Plain :=
  wellFormed_hereditary.and isNoList_law.hereditary fun _ => plain_iff

theorem regular_hereditary : Hereditary Regular :=
  wellFormed_hereditary.and isAddressable_law.hereditary fun _ => regular_iff

/-- A property that a tree passes on to what it holds. -/
structure OfParts (P : Tree → Prop) : Prop where
  fields : ∀ {fields : Dictionary Tree}, P (.map fields) → ∀ e ∈ fields, P e.2
  items : ∀ {items : List Tree}, P (.list items) → ∀ t ∈ items, P t

theorem ofParts_all (ok : Tree → Bool) : OfParts fun t => t.all ok = true where
  fields h := (all_map.1 h).2
  items h := (all_list.1 h).2

theorem OfParts.and {P Q R : Tree → Prop} (hP : OfParts P) (hQ : OfParts Q)
    (same : ∀ t, R t ↔ P t ∧ Q t) : OfParts R where
  fields h e he := (same _).2 ⟨hP.fields ((same _).1 h).1 e he, hQ.fields ((same _).1 h).2 e he⟩
  items h t ht := (same _).2 ⟨hP.items ((same _).1 h).1 t ht, hQ.items ((same _).1 h).2 t ht⟩

theorem wellFormed_ofParts : OfParts WellFormed where
  fields h e he :=
    (wellFormed_iff_all _).2 ((ofParts_all keysInOrder).fields ((wellFormed_iff_all _).1 h) e he)
  items h t ht :=
    (wellFormed_iff_all _).2 ((ofParts_all keysInOrder).items ((wellFormed_iff_all _).1 h) t ht)

theorem plain_ofParts : OfParts Plain :=
  wellFormed_ofParts.and (ofParts_all isNoList) fun _ => plain_iff

theorem regular_ofParts : OfParts Regular :=
  wellFormed_ofParts.and (ofParts_all isAddressable) fun _ => regular_iff

/-! ## Trees that may be absent -/

/-- A tree that may be absent has a property if it is there and has it. -/
def Slot (P : Tree → Prop) (s : Option Tree) : Prop := ∀ t, s = some t → P t

theorem slot_none {P : Tree → Prop} : Slot P none := nofun

theorem slot_some {P : Tree → Prop} {t : Tree} : Slot P (some t) ↔ P t :=
  ⟨fun h => h t rfl, fun h _ same => Option.some.inj same ▸ h⟩

instance {P : Tree → Prop} [DecidablePred P] : (s : Option Tree) → Decidable (Slot P s)
  | none => isTrue slot_none
  | some t => decidable_of_iff (P t) slot_some.symm

abbrev PlainSlot := Slot Plain

abbrev WellFormedSlot := Slot WellFormed

abbrev NoListsSlot := Slot NoLists

abbrev RegularSlot := Slot Regular

theorem plainSlot_iff {s : Option Tree} : PlainSlot s ↔ WellFormedSlot s ∧ NoListsSlot s :=
  ⟨fun h => ⟨fun t ht => (h t ht).wellFormed, fun t ht => (h t ht).noLists⟩,
    fun h t ht => ⟨h.1 t ht, h.2 t ht⟩⟩

theorem Slot.imp {P Q : Tree → Prop} {s : Option Tree} (h : Slot P s) (imp : ∀ t, P t → Q t) :
    Slot Q s := fun t present => imp t (h t present)

end Tree

end TableMotion
