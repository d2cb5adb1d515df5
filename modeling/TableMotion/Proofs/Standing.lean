import TableMotion.Proofs.Faces
import TableMotion.Proofs.Differences

/-!
# Where differences stand

Each change between two trees says what either of them has at its path (`between_changes`), and the
changes stand apart from each other (`apart_changes`): none lies at or under another. So what a
change brings can be put into the tree that has it already, and nothing happens
(`Between.put_new`).
-/

namespace TableMotion

namespace Path

/-- Neither path covers the other. -/
def Apart (p q : Path) : Prop := p.covers q = false ∧ q.covers p = false

theorem Apart.symm {p q : Path} (h : Apart p q) : Apart q p := ⟨h.2, h.1⟩

theorem Apart.ne {p q : Path} (h : Apart p q) : p ≠ q := by
  rintro rfl
  have covers := h.1
  rw [covers_self] at covers
  cases covers

theorem apart_cons_iff {key : String} {p q : Path} : Apart (key :: p) (key :: q) ↔ Apart p q := by
  simp [Apart, covers]

theorem apart_of_keys {key other : String} (different : key ≠ other) (p q : Path) :
    Apart (key :: p) (other :: q) := by
  simp [Apart, covers, List.isPrefixOf_cons_cons, different, Ne.symm different]

theorem indexKey_injective {i j : Nat} (h : indexKey i = indexKey j) : i = j := by
  have read := congrArg (fun key : String => Nat.ofDigitChars 10 key.toList 0) h
  simpa [indexKey, Nat.ofDigitChars_toDigits] using read

end Path

/-- The change back. -/
def Change.back (c : Change) : Change := ⟨c.path, c.new, c.old⟩

namespace Tree

/-! ## What a change says of the two trees -/

/-- A change stands between two trees: one of a node that both have, or one of a place in such a
node that only one of them fills. -/
inductive Between : Tree → Tree → Change → Prop
  | whole {old new : Tree} (different : old ≠ new) : Between old new ⟨Path.root, some old, some new⟩
  | added {old new t : Tree} {key : String} (room : old.removeChild key = .ok (none, old))
      (there : new.child? key = some t) : Between old new ⟨[key], none, some t⟩
  | removed {old new t : Tree} {key : String} (there : old.child? key = some t)
      (room : new.removeChild key = .ok (none, new)) : Between old new ⟨[key], some t, none⟩
  | under {old new s t : Tree} {key : String} {c : Change} (before : old.child? key = some s)
      (after : new.child? key = some t) (inner : Between s t c) : Between old new (c.under key)

theorem Between.back {old new : Tree} {c : Change} (h : Between old new c) :
    Between new old c.back := by
  induction h with
  | whole different => exact .whole (Ne.symm different)
  | added room there => exact .removed there room
  | removed there room => exact .added room there
  | under before after _ ih => exact .under after before ih

/-- What the first tree has at a change can be put there again. -/
theorem Between.put_old {old new : Tree} {c : Change} (h : Between old new c)
    (wellFormed : old.WellFormed) : old.put c.path c.old = .ok old := by
  induction h with
  | whole => exact put_some_ok.2 rfl
  | added room => exact put_none_ok.2 ⟨none, room⟩
  | @removed old new t key there =>
    rw [put_some_ok]
    show old.setChild key t = .ok old
    rw [setChild_of_child? there, replaceChild_self wellFormed there]
  | @under old new s t key c before _ _ ih =>
    have inner := ih (wellFormed_hereditary.child wellFormed before)
    have step := put_under before inner
    rwa [replaceChild_self wellFormed before] at step

/-- What the second tree has at a change can be put there again. -/
theorem Between.put_new {old new : Tree} {c : Change} (h : Between old new c)
    (wellFormed : new.WellFormed) : new.put c.path c.new = .ok new :=
  h.back.put_old wellFormed

/-! ## Every change stands between the trees -/

/-- A key that only the second map has. -/
theorem between_field {before after : Dictionary Tree} (sorted : Dictionary.Sorted before)
    {key : String} {t : Tree} (absent : Dictionary.find? before key = none)
    (there : Dictionary.find? after key = some t) :
    Between (.map before) (.map after) ⟨[key], none, some t⟩ := by
  refine .added ?_ there
  have unchanged : Dictionary.erase before key = before := by
    have same := sorted.assign_find? key
    rwa [absent] at same
  simp [removeChild, absent, unchanged]

/-- An item past the end of the first list. -/
theorem between_item {before after : List Tree} {i : Nat} {t : Tree} (past : before.length ≤ i)
    (there : after[i]? = some t) (short : after.length ≤ 0x10000000000000000) :
    Between (.list before) (.list after) ⟨[Path.indexKey i], none, some t⟩ := by
  have inside : i < after.length := (List.getElem?_eq_some_iff.1 there).1
  have named : Path.index? (Path.indexKey i) = some i := Path.index?_indexKey (by omega)
  apply Between.added
  · simp [removeChild, named, List.getElem?_eq_none past, List.eraseIdx_of_length_le past]
  · simp [child?, named, there]

theorem between_addedItems {before done : List Tree} (length : before.length = done.length)
    {added : List Tree} (short : (done ++ added).length ≤ 0x10000000000000000) :
    ∀ c ∈ addedItems done.length added, Between (.list before) (.list (done ++ added)) c := by
  intro c hc
  obtain ⟨i, inside, rfl⟩ := List.mem_mapIdx.1 hc
  exact between_item (by omega) (by simp [inside]) short

theorem between_removedItems {after done : List Tree} (length : after.length = done.length)
    {removed : List Tree} (short : (done ++ removed).length ≤ 0x10000000000000000) :
    ∀ c ∈ removedItems done.length removed,
      Between (.list (done ++ removed)) (.list after) c := by
  intro c hc
  obtain ⟨i, inside, rfl⟩ := List.mem_mapIdx.1 (List.mem_reverse.1 hc)
  exact (between_item (t := removed[i]) (by omega) (by simp [inside]) short).back

theorem between_whole (old new : Tree) :
    ∀ c ∈ if old = new then [] else [(⟨Path.root, some old, some new⟩ : Change)],
      Between old new c := by
  intro c hc
  split at hc
  · cases hc
  · rename_i different
    rw [List.mem_singleton.1 hc]
    exact .whole different

theorem between_under {old new s t : Tree} {key : String} {cs : List Change}
    (before : old.child? key = some s) (after : new.child? key = some t)
    (inner : ∀ c ∈ cs, Between s t c) : ∀ c ∈ cs.map (Change.under key), Between old new c := by
  intro c hc
  obtain ⟨d, hd, rfl⟩ := List.mem_map.1 hc
  exact .under before after (inner d hd)

mutual

/-- Every change of the list stands between the two trees. -/
theorem between_changes : (old new : Tree) → old.Regular → new.Regular →
    ∀ c ∈ changes old new, Between old new c
  | .map before, new, hold, hnew => by
    cases new with
    | map after =>
      have sortedBefore := (wellFormed_map.1 hold.wellFormed).1
      have sortedAfter := (wellFormed_map.1 hnew.wellFormed).1
      intro c hc
      unfold changes at hc
      split at hc
      · cases hc
      · rcases List.mem_append.1 hc with hc | hc
        · exact between_changedFields before before after
            (fun e he => sortedBefore.find?_eq_some_iff.2 he) sortedAfter
            (regular_ofParts.fields hold) (regular_ofParts.fields hnew) c hc
        · obtain ⟨e, he, rfl⟩ := List.mem_map.1 hc
          obtain ⟨member, absent⟩ := List.mem_filter.1 he
          exact between_field sortedBefore (by simpa using absent)
            (sortedAfter.find?_eq_some_iff.2 member)
    | list | null | bool | amount | text => exact between_whole _ _
  | .list before, new, hold, hnew => by
    cases new with
    | list after =>
      intro c hc
      unfold changes at hc
      split at hc
      · cases hc
      · exact between_changedItems before after [] [] rfl hold hnew c hc
    | map | null | bool | amount | text => exact between_whole _ _
  | .null, new, hold, hnew | .bool _, new, hold, hnew | .amount _, new, hold, hnew
  | .text _, new, hold, hnew => by
    cases new <;> exact between_whole _ _
termination_by structural old => old

theorem between_changedFields : (rest : List (String × Tree)) → (before after : Dictionary Tree) →
    (∀ e ∈ rest, Dictionary.find? before e.1 = some e.2) → Dictionary.Sorted after →
    (∀ e ∈ rest, e.2.Regular) → (∀ e ∈ after, e.2.Regular) →
    ∀ c ∈ changedFields rest after, Between (.map before) (.map after) c
  | [], before, after, _, _, _, _ => by
    intro c hc
    cases hc
  | (key, old) :: rest, before, after, found, sorted, hrest, hafter => by
    intro c hc
    have here : (Tree.map before).child? key = some old := found _ List.mem_cons_self
    rcases List.mem_append.1 hc with hc | hc
    · split at hc
      · rename_i new there
        have inner := between_changes old new (hrest _ List.mem_cons_self)
          (hafter _ (Dictionary.mem_of_find? there))
        have thereNew : (Tree.map after).child? key = some new := there
        exact between_under here thereNew inner c hc
      · rename_i absent
        rw [List.mem_singleton.1 hc]
        exact (between_field sorted absent here).back
    · exact between_changedFields rest before after
        (fun e he => found e (List.mem_cons_of_mem _ he)) sorted
        (fun e he => hrest e (List.mem_cons_of_mem _ he)) hafter c hc
termination_by structural rest => rest

theorem between_changedItems : (rest more before after : List Tree) →
    before.length = after.length → (Tree.list (before ++ rest)).Regular →
    (Tree.list (after ++ more)).Regular →
    ∀ c ∈ changedItems before.length rest more,
      Between (.list (before ++ rest)) (.list (after ++ more)) c
  | [], more, before, after, length, hold, hnew => by
    rw [List.append_nil, length]
    exact between_addedItems length (length_le_of_regular hnew)
  | old :: rest, [], before, after, length, hold, hnew => by
    rw [List.append_nil]
    exact between_removedItems length.symm (length_le_of_regular hold)
  | old :: rest, new :: more, before, after, length, hold, hnew => by
    intro c hc
    have named : Path.index? (Path.indexKey before.length) = some before.length :=
      Path.index?_indexKey (by
        have short := length_le_of_regular hold
        simp only [List.length_append, List.length_cons] at short
        omega)
    rcases List.mem_append.1 hc with hc | hc
    · have inner := between_changes old new (regular_ofParts.items hold old (by simp))
        (regular_ofParts.items hnew new (by simp))
      refine between_under ?_ ?_ inner c hc
      · simp [child?, named]
      · rw [length] at named ⊢
        simp [child?, named]
    · have later := between_changedItems rest more (before ++ [old]) (after ++ [new])
        (by simp [length]) (by simpa using hold) (by simpa using hnew) c
        (by simpa using hc)
      simpa using later
termination_by structural rest => rest

end

/-! ## The changes stand apart -/

/-- No change lies at another one, above it or under it. -/
def ApartChanges (cs : List Change) : Prop := cs.Pairwise fun c d => c.path.Apart d.path

theorem apart_of_head? {c d : Change} {key other : String} (hc : c.path.head? = some key)
    (hd : d.path.head? = some other) (different : key ≠ other) : c.path.Apart d.path := by
  obtain ⟨p, atC⟩ := List.head?_eq_some_iff.1 hc
  obtain ⟨q, atD⟩ := List.head?_eq_some_iff.1 hd
  rw [atC, atD]
  exact Path.apart_of_keys different p q

theorem ApartChanges.under {cs : List Change} (h : ApartChanges cs) (key : String) :
    ApartChanges (cs.map (Change.under key)) :=
  List.pairwise_map.2 (h.imp fun apart => Path.apart_cons_iff.2 apart)

theorem head?_of_mem_under {cs : List Change} {key : String} {c : Change}
    (hc : c ∈ cs.map (Change.under key)) : c.path.head? = some key := by
  obtain ⟨d, -, rfl⟩ := List.mem_map.1 hc
  rfl

theorem apart_whole (old new : Tree) :
    ApartChanges (if old = new then [] else [⟨Path.root, some old, some new⟩]) := by
  split
  · exact List.Pairwise.nil
  · exact List.pairwise_singleton ..

theorem head?_addedItems {n : Nat} {items : List Tree} {c : Change} (hc : c ∈ addedItems n items) :
    ∃ i, n ≤ i ∧ c.path.head? = some (Path.indexKey i) := by
  obtain ⟨i, -, rfl⟩ := List.mem_mapIdx.1 hc
  exact ⟨n + i, by omega, rfl⟩

theorem apart_addedItems (n : Nat) (items : List Tree) : ApartChanges (addedItems n items) := by
  induction items generalizing n with
  | nil => exact List.Pairwise.nil
  | cons t items ih =>
    rw [addedItems_cons]
    refine List.pairwise_cons.2 ⟨fun d hd => ?_, ih (n + 1)⟩
    obtain ⟨i, later, head⟩ := head?_addedItems hd
    apply apart_of_head? rfl head
    intro same
    have := Path.indexKey_injective same
    omega

/-- Items go in the opposite order of that in which they would come. -/
theorem removedItems_eq (n : Nat) (items : List Tree) :
    removedItems n items = ((addedItems n items).map Change.back).reverse := by
  simp [removedItems, addedItems, Change.back, List.mapIdx_eq_zipIdx_map]

theorem apart_removedItems (n : Nat) (items : List Tree) : ApartChanges (removedItems n items) := by
  rw [removedItems_eq]
  refine List.pairwise_reverse.2 (List.pairwise_map.2 ((apart_addedItems n items).imp ?_))
  intro c d apart
  exact apart.symm

theorem head?_removedItems {n : Nat} {items : List Tree} {c : Change}
    (hc : c ∈ removedItems n items) : ∃ i, n ≤ i ∧ c.path.head? = some (Path.indexKey i) := by
  rw [removedItems_eq, List.mem_reverse] at hc
  obtain ⟨d, hd, rfl⟩ := List.mem_map.1 hc
  obtain ⟨i, later, head⟩ := head?_addedItems hd
  exact ⟨i, later, head⟩

theorem head?_changedItems {rest more : List Tree} {n : Nat} {c : Change}
    (hc : c ∈ changedItems n rest more) : ∃ i, n ≤ i ∧ c.path.head? = some (Path.indexKey i) := by
  induction rest generalizing n more with
  | nil => exact head?_addedItems hc
  | cons old rest ih =>
    cases more with
    | nil => exact head?_removedItems hc
    | cons new more =>
      rcases List.mem_append.1 hc with hc | hc
      · exact ⟨n, Nat.le_refl n, head?_of_mem_under hc⟩
      · obtain ⟨i, later, head⟩ := ih hc
        exact ⟨i, by omega, head⟩

theorem head?_changedFields {rest after : Dictionary Tree} {c : Change}
    (hc : c ∈ changedFields rest after) : ∃ e ∈ rest, c.path.head? = some e.1 := by
  induction rest with
  | nil => cases hc
  | cons e rest ih =>
    rcases List.mem_append.1 hc with hc | hc
    · refine ⟨e, List.mem_cons_self, ?_⟩
      split at hc
      · exact head?_of_mem_under hc
      · rw [List.mem_singleton.1 hc]
        rfl
    · obtain ⟨x, hx, head⟩ := ih hc
      exact ⟨x, List.mem_cons_of_mem e hx, head⟩

theorem apart_addedFields (before : Dictionary Tree) {after : Dictionary Tree}
    (sorted : Dictionary.Sorted after) : ApartChanges (addedFields before after) := by
  refine List.pairwise_map.2 ((List.Pairwise.filter _ sorted).imp ?_)
  intro e x less
  exact Path.apart_of_keys (String.ne_of_lt less) [] []

mutual

/-- The changes between two trees stand apart. -/
theorem apart_changes : (old new : Tree) → old.WellFormed → new.WellFormed →
    ApartChanges (changes old new)
  | .map before, new, hold, hnew => by
    cases new with
    | map after =>
      have sortedBefore := (wellFormed_map.1 hold).1
      have sortedAfter := (wellFormed_map.1 hnew).1
      unfold changes
      split
      · exact List.Pairwise.nil
      · refine List.pairwise_append.2 ⟨?_, apart_addedFields before sortedAfter, ?_⟩
        · exact apart_changedFields before after sortedBefore (wellFormed_map.1 hold).2
            (wellFormed_map.1 hnew).2
        · -- what is added has a key that the first map lacks
          intro c hc d hd
          obtain ⟨e, he, head⟩ := head?_changedFields hc
          obtain ⟨x, hx, rfl⟩ := List.mem_map.1 hd
          apply apart_of_head? head rfl
          intro same
          have there := sortedBefore.find?_eq_some_iff.2 he
          rw [same] at there
          simpa [there] using (List.mem_filter.1 hx).2
    | list | null | bool | amount | text => exact apart_whole _ _
  | .list before, new, hold, hnew => by
    cases new with
    | list after =>
      unfold changes
      split
      · exact List.Pairwise.nil
      · exact apart_changedItems before after 0 (fun t ht => wellFormed_ofParts.items hold t ht)
          fun t ht => wellFormed_ofParts.items hnew t ht
    | map | null | bool | amount | text => exact apart_whole _ _
  | .null, new, hold, hnew | .bool _, new, hold, hnew | .amount _, new, hold, hnew
  | .text _, new, hold, hnew => by
    cases new <;> exact apart_whole _ _
termination_by structural old => old

theorem apart_changedFields : (rest after : List (String × Tree)) → Dictionary.Sorted rest →
    (∀ e ∈ rest, e.2.WellFormed) → (∀ e ∈ after, e.2.WellFormed) →
    ApartChanges (changedFields rest after)
  | [], after, _, _, _ => List.Pairwise.nil
  | (key, old) :: rest, after, sorted, hrest, hafter => by
    obtain ⟨above, ordered⟩ := Dictionary.sorted_cons.1 sorted
    refine List.pairwise_append.2 ⟨?_, ?_, ?_⟩
    · split
      · rename_i new there
        exact (apart_changes old new (hrest _ List.mem_cons_self)
          (hafter _ (Dictionary.mem_of_find? there))).under key
      · exact List.pairwise_singleton ..
    · exact apart_changedFields rest after ordered
        (fun e he => hrest e (List.mem_cons_of_mem _ he)) hafter
    · intro c hc d hd
      have head : c.path.head? = some key := by
        split at hc
        · exact head?_of_mem_under hc
        · rw [List.mem_singleton.1 hc]
          rfl
      obtain ⟨e, he, headD⟩ := head?_changedFields hd
      exact apart_of_head? head headD (String.ne_of_lt (above e he))
termination_by structural rest => rest

theorem apart_changedItems : (rest more : List Tree) → (n : Nat) → (∀ t ∈ rest, t.WellFormed) →
    (∀ t ∈ more, t.WellFormed) → ApartChanges (changedItems n rest more)
  | [], more, n, _, _ => apart_addedItems n more
  | old :: rest, [], n, _, _ => apart_removedItems n (old :: rest)
  | old :: rest, new :: more, n, hrest, hmore => by
    refine List.pairwise_append.2 ⟨?_, ?_, ?_⟩
    · exact (apart_changes old new (hrest _ List.mem_cons_self)
        (hmore _ List.mem_cons_self)).under _
    · exact apart_changedItems rest more (n + 1) (fun t ht => hrest t (List.mem_cons_of_mem _ ht))
        fun t ht => hmore t (List.mem_cons_of_mem _ ht)
    · intro c hc d hd
      obtain ⟨i, later, head⟩ := head?_changedItems hd
      apply apart_of_head? (head?_of_mem_under hc) head
      intro same
      have := Path.indexKey_injective same
      omega
termination_by structural rest => rest

end

end Tree

end TableMotion
