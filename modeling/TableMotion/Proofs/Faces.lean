import TableMotion.Proofs.Overwriting

/-!
# Faces of nodes

The face of a node is the node without what it holds. A tree is what its faces are
(`ext_of_faceAt`), and a write changes faces at its path and under it only. A removal from a list is
the exception: the items behind it move (`Displaced`).
-/

namespace TableMotion

namespace Path

theorem below?_append (p q : Path) : Path.below? (p ++ q) p = some q := below?_eq_some_iff.2 rfl

theorem below?_eq_none {p x : Path} (apart : p.covers x = false) : x.below? p = none := by
  simp [below?, apart]

theorem covers_trans {p q x : Path} (h : p.covers q = true) (k : q.covers x = true) :
    p.covers x = true := by
  obtain ⟨rest, rfl⟩ := covers_iff.1 h
  obtain ⟨more, rfl⟩ := covers_iff.1 k
  exact covers_iff.2 ⟨rest ++ more, List.append_assoc ..⟩

theorem isAbove_trans {p q x : Path} (h : p.isAbove q = true) (k : q.isAbove x = true) :
    p.isAbove x = true := by
  obtain ⟨key, rest, rfl⟩ := isAbove_iff.1 h
  obtain ⟨other, more, rfl⟩ := isAbove_iff.1 k
  exact isAbove_iff.2 ⟨key, rest ++ other :: more, by simp⟩

/-- Keys that two paths begin with do not count. -/
theorem append_covers_append (stem p q : Path) :
    (stem ++ p).covers (stem ++ q) = p.covers q := by
  rw [Bool.eq_iff_iff, covers_iff, covers_iff]
  simp

/-- What does not cover a path covers nothing above it. -/
theorem not_covers_above {p q x : Path} (apart : p.covers x = false) (above : q.covers x = true) :
    p.covers q = false := by
  rw [← Bool.not_eq_true] at apart ⊢
  intro covers
  exact apart (covers_trans covers above)

theorem covers_concat {y stem : Path} {key : String} (covers : y.covers (stem ++ [key]) = true) :
    y.covers stem = true ∨ y = stem ++ [key] := by
  obtain ⟨rest, split⟩ := covers_iff.1 covers
  rcases List.eq_nil_or_concat rest with rfl | ⟨rest, last, rfl⟩
  · exact Or.inr (by simpa using split.symm)
  · rw [List.concat_eq_append, ← List.append_assoc] at split
    exact Or.inl (covers_iff.2 ⟨rest, (List.append_inj' split rfl).1⟩)

theorem not_covers_of_isAbove {p q : Path} (above : p.isAbove q = true) : q.covers p = false := by
  rw [← Bool.not_eq_true]
  intro covers
  obtain ⟨key, rest, rfl⟩ := isAbove_iff.1 above
  obtain ⟨more, split⟩ := covers_iff.1 covers
  have := congrArg List.length split
  simp at this

theorem not_isAbove_self (p : Path) : ¬ p.isAbove p = true := by
  intro above
  have apart := not_covers_of_isAbove above
  rw [covers_self] at apart
  cases apart

theorem covers_antisymm {p q : Path} (h : p.covers q = true) (k : q.covers p = true) : p = q := by
  rcases covers_iff_eq_or_isAbove.1 h with same | above
  · exact same
  · rw [not_covers_of_isAbove above] at k
    cases k

theorem concat_not_covers (stem : Path) (key : String) :
    Path.covers (stem ++ [key]) stem = false :=
  not_covers_of_isAbove (isAbove_iff.2 ⟨key, [], rfl⟩)

/-- Of two paths that cover a third, one covers the other. -/
theorem covers_or_covers {p q x : Path} (h : p.covers x = true) (k : q.covers x = true) :
    p.covers q = true ∨ q.covers p = true := by
  obtain ⟨rest, rfl⟩ := covers_iff.1 h
  obtain ⟨more, same⟩ := covers_iff.1 k
  rcases List.append_eq_append_iff.1 same with ⟨between, rfl, -⟩ | ⟨between, rfl, -⟩
  · exact Or.inl (covers_append ..)
  · exact Or.inr (covers_append ..)

end Path

namespace Tree

/-- A node without what it holds. -/
def face : Tree → Tree
  | .list _ => .list []
  | .map _ => .map []
  | t => t

/-- The face of the node at a path, if there is one. -/
def faceAt (s : Option Tree) (p : Path) : Option Tree := (s.bind (·.get? p)).map face

@[simp] theorem faceAt_none (p : Path) : faceAt none p = none := rfl

@[simp] theorem faceAt_root (t : Tree) : faceAt (some t) [] = some t.face := rfl

theorem faceAt_nil (s : Option Tree) : faceAt s [] = s.map face := by
  cases s <;> rfl

theorem faceAt_cons (t : Tree) (key : String) (p : Path) :
    faceAt (some t) (key :: p) = faceAt (t.child? key) p := by
  simp [faceAt, get?_cons]

theorem faceAt_append (s : Option Tree) (p q : Path) :
    faceAt s (p ++ q) = faceAt (s.bind (·.get? p)) q := by
  cases s with
  | none => rfl
  | some t => simp [faceAt, get?_append]

theorem face_eq_map {t : Tree} : t.face = .map [] ↔ ∃ fields, t = .map fields := by
  cases t <;> simp [face]

theorem face_eq_list {t : Tree} : t.face = .list [] ↔ ∃ items, t = .list items := by
  cases t <;> simp [face]

/-- Nothing stands below a place where nothing stands. -/
theorem faceAt_append_eq_none {s : Option Tree} {p : Path} (nothing : faceAt s p = none)
    (q : Path) : faceAt s (p ++ q) = none := by
  rw [faceAt_append, Option.map_eq_none_iff.1 nothing, faceAt_none]

/-! ## Trees with the same faces -/

theorem child?_indexKey (items : List Tree) {i : Nat} (h : i < 0x10000000000000000) :
    (Tree.list items).child? (Path.indexKey i) = items[i]? := by
  simp [child?, Path.index?_indexKey h]

theorem getElem?_eq_none_of_regular {items : List Tree} (regular : (Tree.list items).Regular)
    {i : Nat} (h : 0x10000000000000000 ≤ i) : items[i]? = none := by
  have short : items.length ≤ 0x10000000000000000 := by
    simpa [isAddressable] using (all_list.1 regular.addressable).1
  exact List.getElem?_eq_none (Nat.le_trans short h)

mutual

/-- A tree is what its faces are. -/
theorem ext_of_faceAt : (s u : Tree) → s.Regular → u.Regular →
    (∀ p, faceAt (some s) p = faceAt (some u) p) → s = u
  | .list items, u, hs, hu, same => by
    obtain ⟨others, rfl⟩ := face_eq_list.1 (Option.some.inj (same [])).symm
    have sameItems : ∀ (i : Nat) (p : Path), faceAt items[i]? p = faceAt others[i]? p := by
      intro i p
      by_cases h : i < 0x10000000000000000
      · rw [← child?_indexKey items h, ← child?_indexKey others h, ← faceAt_cons, ← faceAt_cons]
        exact same _
      · -- an item past the last address is in neither list
        rw [getElem?_eq_none_of_regular hs (Nat.le_of_not_lt h),
          getElem?_eq_none_of_regular hu (Nat.le_of_not_lt h)]
    exact congrArg Tree.list (ext_items items others (regular_ofParts.items hs)
      (regular_ofParts.items hu) sameItems)
  | .map fields, u, hs, hu, same => by
    obtain ⟨others, rfl⟩ := face_eq_map.1 (Option.some.inj (same [])).symm
    have sorted := (wellFormed_map.1 hs.wellFormed).1
    have sortedOthers := (wellFormed_map.1 hu.wellFormed).1
    have sameFields : ∀ key p, faceAt (Dictionary.find? fields key) p =
        faceAt (Dictionary.find? others key) p := by
      intro key p
      have under := same (key :: p)
      rwa [faceAt_cons, faceAt_cons] at under
    have found := ext_fields fields others (regular_ofParts.fields hs)
      (regular_ofParts.fields hu) fun e he p => by
        rw [← sameFields e.1 p, sorted.find?_eq_some_iff.2 he]
    refine congrArg Tree.map (sorted.ext sortedOthers fun key => ?_)
    cases here : Dictionary.find? fields key with
    | some t => exact (found _ (Dictionary.mem_of_find? here)).symm
    | none =>
      have atRoot := sameFields key []
      rw [here] at atRoot
      cases there : Dictionary.find? others key with
      | none => rfl
      | some u =>
        rw [there] at atRoot
        cases atRoot
  | .null, u, _, _, same | .bool _, u, _, _, same | .amount _, u, _, _, same
  | .text _, u, _, _, same => by
    have atRoot := Option.some.inj (same [])
    cases u <;> simp_all [face]
termination_by structural s => s

theorem ext_items : (items others : List Tree) → (∀ t ∈ items, t.Regular) →
    (∀ t ∈ others, t.Regular) →
    (∀ (i : Nat) (p : Path), faceAt items[i]? p = faceAt others[i]? p) →
    items = others
  | [], [], _, _, _ => rfl
  | [], u :: rest, _, _, same => by
    have first := same 0 []
    cases first
  | t :: rest, [], _, _, same => by
    have first := same 0 []
    cases first
  | t :: rest, u :: more, hs, hu, same => by
    have head : t = u := ext_of_faceAt t u (hs t List.mem_cons_self) (hu u List.mem_cons_self)
      fun p => same 0 p
    have tail := ext_items rest more (fun x hx => hs x (List.mem_cons_of_mem t hx))
      (fun x hx => hu x (List.mem_cons_of_mem u hx)) fun i p => same (i + 1) p
    rw [head, tail]
termination_by structural items => items

theorem ext_fields : (fields : List (String × Tree)) → (others : Dictionary Tree) →
    (∀ e ∈ fields, e.2.Regular) → (∀ e ∈ others, e.2.Regular) →
    (∀ e ∈ fields, ∀ p, faceAt (some e.2) p = faceAt (Dictionary.find? others e.1) p) →
    ∀ e ∈ fields, Dictionary.find? others e.1 = some e.2
  | [], others, _, _, _ => by
    intro e he
    cases he
  | (key, t) :: rest, others, hs, hu, same => by
    intro e he
    rcases List.mem_cons.1 he with rfl | he
    · have here := same _ List.mem_cons_self
      cases found : Dictionary.find? others key with
      | none =>
        have atRoot := here []
        rw [found] at atRoot
        cases atRoot
      | some u =>
        rw [found] at here
        rw [ext_of_faceAt t u (hs _ List.mem_cons_self) (hu _ (Dictionary.mem_of_find? found)) here]
    · exact ext_fields rest others (fun x hx => hs x (List.mem_cons_of_mem _ hx)) hu
        (fun x hx => same x (List.mem_cons_of_mem _ hx)) e he
termination_by structural fields => fields

end

/-! ## Writes -/

theorem face_setChild {t u value : Tree} {key : String} (made : t.setChild key value = .ok u) :
    u.face = t.face := by
  cases t with
  | map fields =>
    cases made
    rfl
  | list items =>
    simp only [setChild] at made
    split at made
    · cases made
    · split at made
      · cases made
        rfl
      · split at made
        · cases made
          rfl
        · cases made
  | null | bool | amount | text => cases made

theorem face_replaceChild (t : Tree) (key : String) (value : Tree) :
    (t.replaceChild key value).face = t.face := by
  cases t with
  | list items =>
    simp only [replaceChild]
    split <;> rfl
  | map | null | bool | amount | text => rfl

theorem face_removeChild {t : Tree} {key : String} {r : Option Tree × Tree}
    (made : t.removeChild key = .ok r) : r.2.face = t.face := by
  cases t with
  | map fields =>
    cases made
    rfl
  | list items =>
    simp only [removeChild] at made
    split at made
    · cases made
    · cases made
      rfl
  | null | bool | amount | text => cases made

theorem get?_write_under {value t u : Tree} {p : Path} (made : write value p t = .ok u)
    (q : Path) : u.get? (p ++ q) = value.get? q := by
  induction p generalizing t u with
  | nil =>
    cases made
    rfl
  | cons key p ih =>
    rw [List.cons_append, get?_cons]
    cases p with
    | nil =>
      rw [child?_setChild_self made]
      rfl
    | cons next p =>
      obtain ⟨c, d, found, inner, rfl⟩ := write_cons_ok.1 made
      rw [child?_replaceChild_self d (by rw [found]; rfl)]
      exact ih inner

theorem get?_write_self {value t u : Tree} {p : Path} (made : write value p t = .ok u) :
    u.get? p = some value := by
  have under := get?_write_under made []
  rwa [List.append_nil] at under

/-- A write changes nothing beside its path. -/
theorem get?_write_beside {value t u : Tree} {p q : Path} (made : write value p t = .ok u)
    (apart : p.covers q = false) (aside : q.covers p = false) : u.get? q = t.get? q := by
  induction p generalizing t u q with
  | nil => cases apart
  | cons key p ih =>
    cases q with
    | nil => cases aside
    | cons other q =>
      rw [get?_cons, get?_cons]
      by_cases same : key = other
      · subst same
        have apartBelow : Path.covers p q = false := by simpa [Path.covers] using apart
        have asideBelow : Path.covers q p = false := by simpa [Path.covers] using aside
        cases p with
        | nil => cases apartBelow
        | cons next p =>
          obtain ⟨c, d, found, inner, rfl⟩ := write_cons_ok.1 made
          rw [child?_replaceChild_self d (by rw [found]; rfl), found]
          exact ih inner apartBelow asideBelow
      · cases p with
        | nil => rw [child?_setChild_of_ne made same]
        | cons next p =>
          obtain ⟨c, d, -, -, rfl⟩ := write_cons_ok.1 made
          rw [child?_replaceChild_of_ne t d same]

theorem faceAt_write_under {value t u : Tree} {p : Path} (made : write value p t = .ok u)
    (q : Path) : faceAt (some u) (p ++ q) = faceAt (some value) q := by
  simp only [faceAt, Option.bind_some, get?_write_under made]

theorem faceAt_write_off {value t u : Tree} {p x : Path} (made : write value p t = .ok u)
    (apart : p.covers x = false) : faceAt (some u) x = faceAt (some t) x := by
  induction p generalizing t u x with
  | nil => cases apart
  | cons key p ih =>
    cases x with
    | nil =>
      rw [faceAt_root, faceAt_root]
      cases p with
      | nil => rw [face_setChild made]
      | cons next p =>
        obtain ⟨c, d, -, -, rfl⟩ := write_cons_ok.1 made
        rw [face_replaceChild]
    | cons other x =>
      rw [faceAt_cons, faceAt_cons]
      by_cases same : key = other
      · subst same
        have apartBelow : Path.covers p x = false := by simpa [Path.covers] using apart
        cases p with
        | nil => cases apartBelow
        | cons next p =>
          -- under the same key the write goes on in the child
          obtain ⟨c, d, found, inner, rfl⟩ := write_cons_ok.1 made
          rw [child?_replaceChild_self d (by rw [found]; rfl), found]
          exact ih inner apartBelow
      · cases p with
        | nil => rw [child?_setChild_of_ne made same]
        | cons next p =>
          obtain ⟨c, d, -, -, rfl⟩ := write_cons_ok.1 made
          rw [child?_replaceChild_of_ne t d same]

/-! ## Removals -/

/-- `q` names a later item of the list at `stem` than `p`. -/
def Behind (stem p q : Path) : Prop :=
  ∃ key other i j, p = stem ++ [key] ∧ q = stem ++ [other] ∧ Path.index? key = some i ∧
    Path.index? other = some j ∧ i < j

/-- Different items cover nothing in common. -/
theorem Behind.not_covers {stem p q : Path} (h : Behind stem p q) {x : Path}
    (underP : p.covers x = true) : q.covers x = false := by
  obtain ⟨key, other, i, j, rfl, rfl, named, located, less⟩ := h
  rw [← Bool.not_eq_true]
  intro underQ
  have same : key = other := by
    obtain ⟨rest, rfl⟩ := Path.covers_iff.1 underP
    obtain ⟨more, split⟩ := Path.covers_iff.1 underQ
    simpa using congrArg (fun x => (x.drop stem.length).head?) split
  rw [same, located] at named
  obtain rfl := Option.some.inj named
  omega

theorem Behind.apart {stem p q : Path} (h : Behind stem p q) {x : Path}
    (underQ : q.covers x = true) : p.covers x = false := by
  rw [← Bool.not_eq_true]
  intro underP
  rw [h.not_covers underP] at underQ
  cases underQ

theorem Behind.not_covers_stem {stem p q : Path} (h : Behind stem p q) :
    p.covers stem = false ∧ q.covers stem = false := by
  obtain ⟨key, other, i, j, rfl, rfl, -⟩ := h
  exact ⟨Path.concat_not_covers .., Path.concat_not_covers ..⟩

theorem Behind.covers_item {stem p q y : Path} (h : Behind stem p q)
    (covers : y.covers q = true) : y.covers stem = true ∨ y = q := by
  obtain ⟨key, other, i, j, rfl, rfl, -⟩ := h
  exact Path.covers_concat covers

theorem Behind.isAbove {stem p q x : Path} (h : Behind stem p q) (under : q.covers x = true) :
    stem.isAbove x = true := by
  obtain ⟨key, other, i, j, rfl, rfl, -⟩ := h
  obtain ⟨rest, rfl⟩ := Path.covers_iff.1 under
  exact Path.isAbove_iff.2 ⟨other, rest, by simp⟩

theorem Behind.stem_isAbove {stem p q : Path} (h : Behind stem p q) : stem.isAbove p = true := by
  obtain ⟨key, other, i, j, rfl, rfl, -⟩ := h
  exact Path.isAbove_iff.2 ⟨key, [], rfl⟩

theorem Behind.append {stem p q : Path} (h : Behind stem p q) (above : Path) :
    Behind (above ++ stem) (above ++ p) (above ++ q) := by
  obtain ⟨key, other, i, j, rfl, rfl, rest⟩ := h
  exact ⟨key, other, i, j, (List.append_assoc ..).symm, (List.append_assoc ..).symm, rest⟩

theorem Behind.covers_stem {stem p q : Path} (h : Behind stem p q) :
    stem.covers p = true ∧ stem.covers q = true := by
  obtain ⟨key, other, i, j, rfl, rfl, -⟩ := h
  exact ⟨Path.covers_append .., Path.covers_append ..⟩

/-- A list has no gaps. -/
theorem isSome_of_behind {s : Option Tree} {stem p q : Path} (h : Behind stem p q)
    (isList : faceAt s stem = some (.list [])) (present : (faceAt s q).isSome = true) :
    (faceAt s p).isSome = true := by
  obtain ⟨key, other, i, j, rfl, rfl, named, located, less⟩ := h
  obtain ⟨t, atStem, isListT⟩ := Option.map_eq_some_iff.1 isList
  obtain ⟨items, rfl⟩ := face_eq_list.1 isListT
  rw [faceAt_append, atStem, faceAt_cons, faceAt_nil] at present ⊢
  simp only [child?, named, located, Option.bind_some, Option.isSome_map] at present ⊢
  have inside := (List.getElem?_eq_some_iff.1 (Option.some_get present).symm).1
  rw [List.getElem?_eq_getElem (Nat.lt_trans less inside)]
  rfl

/-- Nothing stands behind a place in its list. -/
def NoneBehind (s : Option Tree) (p : Path) : Prop :=
  ∀ stem q, Behind stem p q → faceAt s stem = some (.list []) → faceAt s q = none

/-- A removal at `p` moves the node at `x`: it stands in a list behind the item that goes. -/
def Displaced (s : Option Tree) (p x : Path) : Prop :=
  ∃ stem q, Behind stem p q ∧ q.covers x = true ∧ faceAt s stem = some (.list []) ∧
    (faceAt s q).isSome = true

theorem NoneBehind.not_displaced {s : Option Tree} {p : Path} (h : NoneBehind s p) (x : Path) :
    ¬ Displaced s p x := by
  rintro ⟨stem, q, behind, -, isList, present⟩
  rw [h stem q behind isList] at present
  cases present

theorem Displaced.under {t c : Tree} {key : String} (found : t.child? key = some c) {p x : Path}
    (h : Displaced (some c) p x) : Displaced (some t) (key :: p) (key :: x) := by
  obtain ⟨stem, q, behind, under, isList, present⟩ := h
  refine ⟨key :: stem, key :: q, behind.append [key], ?_, ?_, ?_⟩
  · simpa [Path.covers] using under
  · rwa [faceAt_cons, found]
  · rwa [faceAt_cons, found]

theorem NoneBehind.below {t c : Tree} {key : String} (found : t.child? key = some c) {p : Path}
    (h : NoneBehind (some t) (key :: p)) : NoneBehind (some c) p := by
  intro stem q behind isList
  have nothing := h (key :: stem) (key :: q) (behind.append [key])
  rw [faceAt_cons, faceAt_cons, found] at nothing
  exact nothing isList

theorem faceAt_removeChild_off {t : Tree} {key other : String} {x : Path}
    {r : Option Tree × Tree} (made : t.removeChild key = .ok r) (different : key ≠ other)
    (still : ¬ Displaced (some t) [key] (other :: x)) :
    faceAt (r.2.child? other) x = faceAt (t.child? other) x := by
  cases t with
  | map fields =>
    cases made
    simp [child?, Dictionary.find?_erase, different]
  | list items =>
    simp only [removeChild] at made
    split at made
    · cases made
    · rename_i i named
      cases made
      cases located : Path.index? other with
      | none => simp [child?, located]
      | some j =>
        have apart : i ≠ j := fun same => different <| by
          rw [(Path.eq_indexKey_of_index? named).1, (Path.eq_indexKey_of_index? located).1, same]
        simp only [child?, located, Option.bind_some]
        by_cases before : j < i
        · rw [List.getElem?_eraseIdx_of_lt before]
        · -- behind the gap there is nothing, or it would move
          have nothing : items[j]? = none := by
            cases present : items[j]? with
            | none => rfl
            | some t =>
              refine absurd ⟨[], [other], ⟨key, other, i, j, rfl, rfl, named, located, by omega⟩,
                Path.covers_append [other] x, rfl, ?_⟩ still
              simp [faceAt_cons, child?, located, present]
          have short := List.getElem?_eq_none_iff.1 nothing
          rw [List.getElem?_eraseIdx_of_ge (by omega), nothing,
            List.getElem?_eq_none (by omega)]
  | null | bool | amount | text => cases made

theorem faceAt_takeOut_off {t : Tree} {p x : Path} {r : Option Tree × Tree}
    (made : takeOut p t = .ok r) (apart : p.covers x = false)
    (still : ¬ Displaced (some t) p x) : faceAt (some r.2) x = faceAt (some t) x := by
  induction p generalizing t r x with
  | nil => cases made
  | cons key p ih =>
    cases x with
    | nil =>
      rw [faceAt_root, faceAt_root]
      cases p with
      | nil => rw [face_removeChild made]
      | cons next p =>
        obtain ⟨c, d, -, -, rfl⟩ := takeOut_cons_ok.1 made
        rw [face_replaceChild]
    | cons other x =>
      rw [faceAt_cons, faceAt_cons]
      by_cases same : key = other
      · subst same
        have apartBelow : Path.covers p x = false := by simpa [Path.covers] using apart
        cases p with
        | nil => cases apartBelow
        | cons next p =>
          obtain ⟨c, d, found, inner, rfl⟩ := takeOut_cons_ok.1 made
          rw [child?_replaceChild_self d.2 (by rw [found]; rfl), found]
          exact ih inner apartBelow fun moved => still (moved.under found)
      · cases p with
        | nil => exact faceAt_removeChild_off made same still
        | cons next p =>
          obtain ⟨c, d, -, -, rfl⟩ := takeOut_cons_ok.1 made
          rw [child?_replaceChild_of_ne t d.2 same]

theorem faceAt_takeOut_under {t : Tree} {p : Path} {r : Option Tree × Tree}
    (made : takeOut p t = .ok r) (regular : t.Regular) (last : NoneBehind (some t) p) (q : Path) :
    faceAt (some r.2) (p ++ q) = none := by
  induction p generalizing t r with
  | nil => cases made
  | cons key p ih =>
    rw [List.cons_append, faceAt_cons]
    cases p with
    | nil =>
      cases t with
      | map fields =>
        cases made
        simp [child?, Dictionary.find?_erase]
      | list items =>
        simp only [takeOut, removeChild] at made
        split at made
        · cases made
        · rename_i i named
          cases made
          -- the next item would close the gap, but it is behind the last one
          have nothing : items[i + 1]? = none := by
            by_cases h : i + 1 < 0x10000000000000000
            · have behind : Behind [] [key] [Path.indexKey (i + 1)] :=
                ⟨key, _, i, i + 1, rfl, rfl, named, Path.index?_indexKey h, Nat.lt_succ_self i⟩
              have atNext := last _ _ behind rfl
              rwa [faceAt_cons, child?_indexKey items h, faceAt_nil,
                Option.map_eq_none_iff] at atNext
            · exact getElem?_eq_none_of_regular regular (Nat.le_of_not_lt h)
          simp only [child?, named, Option.bind_some]
          rw [List.getElem?_eraseIdx_of_ge (Nat.le_refl i), nothing, faceAt_none]
      | null | bool | amount | text => cases made
    | cons next p =>
      obtain ⟨c, d, found, inner, rfl⟩ := takeOut_cons_ok.1 made
      rw [child?_replaceChild_self d.2 (by rw [found]; rfl)]
      exact ih inner (regular_hereditary.child regular found) (last.below found)

/-! ## Writes that fail -/

/-- Where nothing can be written, nothing stands. -/
theorem faceAt_of_write_error {value t : Tree} {p : Path} {e : WriteFault}
    (failed : write value p t = .error e) : faceAt (some t) p = none := by
  refine Option.map_eq_none_iff.2 (Option.eq_none_iff_forall_ne_some.2 fun c there => ?_)
  obtain ⟨u, made⟩ := exists_write_of_get? there value
  cases failed.symm.trans made

/-- Where nothing can be taken out, nothing stands. -/
theorem faceAt_of_takeOut_error {t : Tree} {key : String} {p : Path} {e : WriteFault}
    (failed : takeOut (key :: p) t = .error e) : faceAt (some t) (key :: p) = none := by
  induction p generalizing t key e with
  | nil =>
    rw [faceAt_cons]
    cases t with
    | map fields => cases failed
    | list items =>
      simp only [takeOut, removeChild] at failed
      split at failed
      · rename_i unnamed
        simp [child?, unnamed]
      · cases failed
    | null | bool | amount | text => rfl
  | cons next p ih =>
    rw [faceAt_cons]
    rw [takeOut_cons] at failed
    cases found : t.child? key with
    | none => rfl
    | some c =>
      rw [found] at failed
      cases inner : takeOut (next :: p) c with
      | ok r => simp [inner, Except.map] at failed
      | error e' => exact ih inner

end Tree

/-! ## Trees that may be absent -/

namespace Schedule

open TableMotion.Tree

/-- A write changes no face off its path, unless it takes out an item that others follow. -/
theorem faceAt_putBelow_off {s v : Option Tree} {p x : Path} (apart : p.covers x = false)
    (still : v = none → ¬ Displaced s p x) : faceAt (putBelow s p v) x = faceAt s x := by
  cases p with
  | nil => cases apart
  | cons key p =>
    cases s with
    | none => rw [putBelow_none]
    | some t =>
      cases made : t.put (key :: p) v with
      | error e => rw [putBelow_of_error made]
      | ok u =>
        rw [putBelow_of_put made]
        cases v with
        | some value => exact faceAt_write_off (put_some_ok.1 made) apart
        | none =>
          obtain ⟨old, inner⟩ := put_none_ok.1 made
          exact faceAt_takeOut_off inner apart (still rfl)

theorem faceAt_putBelow_set {t u value : Tree} {p : Path} (made : t.put p (some value) = .ok u)
    (q : Path) : faceAt (putBelow (some t) p (some value)) (p ++ q) = faceAt (some value) q := by
  rw [putBelow_of_put made]
  exact faceAt_write_under (put_some_ok.1 made) q

/-- After the last item of a list, or a key of a map, has gone, nothing is there. -/
theorem faceAt_putBelow_removal {s : Option Tree} (regular : RegularSlot s) {p : Path}
    (last : NoneBehind s p) (q : Path) : faceAt (putBelow s p none) (p ++ q) = none := by
  cases p with
  | nil => rw [putBelow_root, faceAt_none]
  | cons key p =>
    cases s with
    | none => rw [putBelow_none, faceAt_none]
    | some t =>
      cases done : takeOut (key :: p) t with
      | ok r =>
        rw [putBelow_of_put (put_none_ok.2 ⟨r.1, done⟩)]
        exact faceAt_takeOut_under done (regular t rfl) last q
      | error e =>
        rw [putBelow_of_error (put_none_of_error done)]
        exact faceAt_append_eq_none (faceAt_of_takeOut_error done) q

/-- A value that finds no place leaves the place empty. -/
theorem faceAt_putBelow_lost {t value : Tree} {p : Path}
    (lost : ∀ u, t.put p (some value) ≠ .ok u) :
    faceAt (putBelow (some t) p (some value)) p = none := by
  cases p with
  | nil => exact absurd (put_some_ok.2 rfl) (lost value)
  | cons key p =>
    cases done : write value (key :: p) t with
    | ok u => exact absurd (put_some_ok.2 done) (lost u)
    | error e =>
      rw [putBelow_of_error (put_some_of_error done)]
      exact faceAt_of_write_error done

end Schedule

end TableMotion
